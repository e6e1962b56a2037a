import DeepDB.Plans.QEP
import DeepDB.Plans.IndexScan
import DeepDB.Plans.Group
import DeepDB.Lib.SortedAssoc
import DeepDB.Lib.Multiway
import DeepDB.BTree.Relation
import DeepDB.BTree.Tree
import DeepDB.BTree.Search
import DeepDB.BTree.Cursor
import DeepDB.BTree.Insert
import DeepDB.BTree.Run
import DeepDB.BTree.SortedMap
import DeepDB.BTree.Balance
import DeepDB.Functional.Btrees
import DeepDB.Functional.Path
import DeepDB.Functional.Put
import DeepDB.Functional.Loss
import DeepDB.Functional.Steps
import DeepDB.Functional.Lookup
import DeepDB.Functional.Rewrite
import DeepDB.Functional.Index
import DeepDB.Lib.Chain
import DeepDB.Memmgr.Malloc
import DeepDB.Memmgr.Invariant
import DeepDB.Memmgr.Safety
import DeepDB.Memmgr.Sizes
import DeepDB.Lib.Linearizability
import DeepDB.Lib.SearchTree
import DeepDB.Concurrency.NblockingRun
import DeepDB.Concurrency.HandOverHandRun
import DeepDB.Concurrency.PureTree
import DeepDB.Concurrency.CoarseLock
import DeepDB.Library.Relation
import DeepDB.Library.Search
import DeepDB.Library.Refine
import DeepDB.Library.Previous
import DeepDB.Library.Backward
import DeepDB.Library.Contents
import DeepDB.Trie.IndexInt
import DeepDB.DbOps.IndexLaw
import DeepDB.DbOps.Queue
import DeepDB.DbOps.Projection
import DeepDB.DbOps.SeqScan
import DeepDB.DbOps.IndexScan
import DeepDB.Lib.Join
import DeepDB.DbOps.IndexJoin
import DeepDB.BPlus.Insert
import DeepDB.BPlus.Correct
import DeepDB.Model.BTrees
import DeepDB.Model.BTreesModule
import DeepDB.Model.Cursors
import DeepDB.Model.LowerBound
import DeepDB.Trie.Keyslice
import DeepDB.Trie.Table
import DeepDB.Trie.BorderNode
import DeepDB.Trie.Functional
import DeepDB.Trie.Correct
import DeepDB.Trie.Lookup
import DeepDB.Trie.MapLaw
import DeepDB.Trie.Runs
import DeepDB.Trie.Places
import DeepDB.Trie.Order
import DeepDB.Trie.Contents
import DeepDB.Trie.Flatten
import DeepDB.Trie.Normalize
import DeepDB.Trie.Scan
import DeepDB.Trie.Decode
import DeepDB.Trie.Util
import DeepDB.Trie.SortedListTable
import DeepDB.Trie.Heap
import DeepDB.Trie.IndexString
import DeepDB.Trie.IndexStringNode
import DeepDB.Trie.IndexStringMemory
import DeepDB.Trie.IndexStringPut
import DeepDB.Trie.IndexStringRun
import DeepDB.Lib.Traced
import DeepDB.BTree.Previous
import DeepDB.BTree.Cells
import DeepDB.BTree.CellsRefine
import DeepDB.BTree.CellsSplit
import DeepDB.BTree.CellsPut
import DeepDB.BTree.Split
import DeepDB.BTree.CellsRun
import DeepDB.Trie.Seek
import DeepDB.Trie.Permuter
import DeepDB.Trie.StringBag
import DeepDB.Memmgr.Carving
import DeepDB.DbOps.StringlistCursor
import DeepDB.DbOps.FoIndex
import DeepDB.DbOps.Materialize
import DeepDB.Library.RangeQuery
import DeepDB.Trie.CursorStack
import DeepDB.Trie.IndexStringCursor
import DeepDB.Lib.RelyGuarantee
import DeepDB.KV.Key
import DeepDB.KV.Run
import DeepDB.Concurrency.Nblocking4Run
import DeepDB.Concurrency.Nblocking4Sequence
