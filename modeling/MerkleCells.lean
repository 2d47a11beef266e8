import MerkleCells.Cell.Make
import MerkleCells.Persist
import MerkleCells.Trie.Lookup
import MerkleCells.Trie.Update
import MerkleCells.Trie.Order
import MerkleCells.Trie.SetOperation
import MerkleCells.Trie.Merge
import MerkleCells.Cell.Show
import MerkleCells.ContentSet
import MerkleCells.KeyMap
import MerkleCells.SymbolTable
import MerkleCells.Json.Basic
import MerkleCells.Json.Settings
import MerkleCells.Store.Survey
import MerkleCells.Frame.Bits
import MerkleCells.Frame.Fse
import MerkleCells.Frame.Huffman
import MerkleCells.Frame.Literals
import MerkleCells.Frame.Sequence
import MerkleCells.Frame.Block
import MerkleCells.Proofs.Action
import MerkleCells.Proofs.Content
import MerkleCells.Proofs.Addressing
import MerkleCells.Proofs.Trie.Children
import MerkleCells.Proofs.Trie.Holds
import MerkleCells.Proofs.Trie.Lookup
import MerkleCells.Proofs.Trie.Insertion
import MerkleCells.Proofs.Trie.Removal
import MerkleCells.Proofs.Trie.Invariant
import MerkleCells.Proofs.KeyMap
import MerkleCells.Proofs.Quantity
import MerkleCells.Proofs.Reading
import MerkleCells.Proofs.Trie.Reading
import MerkleCells.Proofs.Decoding
import MerkleCells.Proofs.Accepting
import MerkleCells.Proofs.Trie.Accepting
import MerkleCells.Proofs.Canonical
import MerkleCells.Proofs.Trie.Decoding
import MerkleCells.Proofs.Trie.Uniqueness
import MerkleCells.Proofs.Trie.Listing
import MerkleCells.Proofs.Trie.Accepted
import MerkleCells.Proofs.Trie.Combine
import MerkleCells.Proofs.Trie.Tally
import MerkleCells.Proofs.Trie.Merge
import MerkleCells.Proofs.Trie.MergeWalk
import MerkleCells.Proofs.Trie.Held
import MerkleCells.Proofs.Trie.Carries
import MerkleCells.Proofs.Constructible
import MerkleCells.Proofs.Involved
import MerkleCells.Proofs.Elements
import MerkleCells.Proofs.Trie.Rebuilding
import MerkleCells.Proofs.SelfContained
import MerkleCells.Proofs.History.Map
import MerkleCells.Proofs.History.Set
import MerkleCells.Proofs.History.Algebra
import MerkleCells.Proofs.History.Independence
import MerkleCells.Proofs.Table
import MerkleCells.Proofs.Frame
import MerkleCells.Proofs.Store.Recording
import MerkleCells.Proofs.Store.Image
import MerkleCells.Proofs.Store.Index
import MerkleCells.Proofs.Store.Reopening
import MerkleCells.Proofs.Store.Contents
import MerkleCells.Proofs.Loading
import MerkleCells.Proofs.Persisting
import MerkleCells.Proofs.Markers
import MerkleCells.Proofs.Store.Watching
import MerkleCells.Proofs.Store.Settling
import MerkleCells.Proofs.Store.Course
import MerkleCells.Proofs.Store.Agreement
import MerkleCells.Proofs.Honest
import MerkleCells.Proofs.Obtained
import MerkleCells.Proofs.Identity
import MerkleCells.Proofs.Mirroring
import MerkleCells.Proofs.Trie.Copies
import MerkleCells.Proofs.Trie.CopyWalks
import MerkleCells.Proofs.Trie.CopyUpdates
import MerkleCells.Proofs.Trie.CopyParts
import MerkleCells.Proofs.Trie.CopyMerge
import MerkleCells.Proofs.Trie.Order
import MerkleCells.Proofs.Partial
import MerkleCells.Proofs.Faithful
import MerkleCells.Proofs.Coherent
import MerkleCells.Proofs.Trie.Sorted
import MerkleCells.Proofs.Trie.Placing
import MerkleCells.Proofs.Store.Walking
import MerkleCells.Proofs.Quantity.Inverse
import MerkleCells.Proofs.Recency
import MerkleCells.Proofs.Trie.Counts
import MerkleCells.Proofs.Trie.Totals
import MerkleCells.Proofs.Trie.TotalsUpdates
import MerkleCells.Proofs.Trie.TotalsMerge
import MerkleCells.Proofs.Trie.Overflow
import MerkleCells.Proofs.Peeking
import MerkleCells.Proofs.Failing
import MerkleCells.Proofs.Trie.Bounds
import MerkleCells.Proofs.Trie.BoundsMerge
import MerkleCells.Proofs.Store.Writing
import MerkleCells.Proofs.Store.Finishing
import MerkleCells.Proofs.Trie.Requests
import MerkleCells.Proofs.Trie.Sparing
