import FiscoBcos.Lib.BigEndian
import FiscoBcos.Lib.Except
import FiscoBcos.Rlp.Encbuf
import FiscoBcos.Rlp.Item
import FiscoBcos.Rlp.Reflect
import FiscoBcos.Rlp.Writer
import FiscoBcos.Rlp.ItemWriter
import FiscoBcos.Rlp.Stream
import FiscoBcos.Rlp.Decoder
import FiscoBcos.Rlp.StreamSpec
import FiscoBcos.Rlp.ItemDecoder
import FiscoBcos.Rlp.TypedDecoder
import FiscoBcos.Rlp.Raw
import FiscoBcos.Crypto.Signature
import FiscoBcos.Types.Transaction
import FiscoBcos.Types.TransactionSigning
import FiscoBcos.Types.SigningSpec
import FiscoBcos.Abi.Type
import FiscoBcos.Abi.Pack
import FiscoBcos.Abi.Unpack
import FiscoBcos.Abi.Spec
import FiscoBcos.Trie.Encoding
import FiscoBcos.Trie.Node
import FiscoBcos.Trie.Database
import FiscoBcos.Trie.Trie
import FiscoBcos.Trie.Map
import FiscoBcos.Trie.Update
import FiscoBcos.Trie.Semantics
import FiscoBcos.Trie.Expand
import FiscoBcos.Trie.Canonical
import FiscoBcos.Trie.Hasher
import FiscoBcos.Trie.Proof
import FiscoBcos.Trie.Codec
import FiscoBcos.Trie.Reload
import FiscoBcos.Bitutil.Compress
import FiscoBcos.Rlp.Scalar
import FiscoBcos.Abi.NewType
import FiscoBcos.Abi.PackEffect
import FiscoBcos.Abi.UnpackSafety
import FiscoBcos.Abi.Topics
import FiscoBcos.Abi.StructFields
import FiscoBcos.Lib.GoSlice
import FiscoBcos.Crypto.Ecies
import FiscoBcos.Lib.Search
import FiscoBcos.Lib.UndoLog
import FiscoBcos.State.Journal
import FiscoBcos.State.Setters
import FiscoBcos.State.Snapshot
import FiscoBcos.Rlp.Output
import FiscoBcos.Rlp.StreamBounds
import FiscoBcos.Lib.AListUpdate
import FiscoBcos.Lib.FlushList
import FiscoBcos.Trie.CommitOrder
import FiscoBcos.Trie.Shape
import FiscoBcos.State.Commit
import FiscoBcos.Accounts.AccountCache
import FiscoBcos.Accounts.Manager
import FiscoBcos.Bloombits.Generator
import FiscoBcos.State.Copy
import FiscoBcos.Trie.Iterator
import FiscoBcos.Keystore.Kdf
import FiscoBcos.Keystore.Passphrase
import FiscoBcos.Hexutil.Quantity
import FiscoBcos.Rpc.Client
import FiscoBcos.Trie.IteratorSpec
import FiscoBcos.Trie.IteratorExpand
import FiscoBcos.Lib.FixedWidth
import FiscoBcos.Math.Big
import FiscoBcos.Lib.Heap
import FiscoBcos.Lib.HeapOrder
import FiscoBcos.Prque.Sstack
import FiscoBcos.Prque.Prque
import FiscoBcos.Rlp.ListHeads
import FiscoBcos.Lib.Strings
import FiscoBcos.Lib.SortedKeys
import FiscoBcos.Lib.BigScan
import FiscoBcos.Accounts.Hd
import FiscoBcos.Ethdb.Memorydb
import FiscoBcos.Lib.RefCount
import FiscoBcos.Trie.Sync
import FiscoBcos.Trie.SyncSpec
