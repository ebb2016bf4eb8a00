import AmbireCrypto.Lib.Traverse
import AmbireCrypto.Lib.Numeral
import AmbireCrypto.Lib.HexCodec
import AmbireCrypto.Lib.Width
import AmbireCrypto.Types
import AmbireCrypto.Json
import AmbireCrypto.Deps
import AmbireCrypto.Encode
import AmbireCrypto.Decode
import AmbireCrypto.Coercion
import AmbireCrypto.Reference
import AmbireCrypto.Lib.Significand
import AmbireCrypto.IntegerArgs
import AmbireCrypto.Rendering
import AmbireCrypto.RoundTrip
import AmbireCrypto.TupleForms
import AmbireCrypto.Positions
import AmbireCrypto.KeyOrder
import AmbireCrypto.RichJson
import AmbireCrypto.BigintTag
import AmbireCrypto.ReturnData
import AmbireCrypto.HexGrammar
import AmbireCrypto.Addresses
import AmbireCrypto.Lib.StrSlice
import AmbireCrypto.TypeSlices
import AmbireCrypto.Lib.TextSearch
import AmbireCrypto.Lib.Utf8Lossy
import AmbireCrypto.StringDecoderPatch
import AmbireCrypto.Lib.Unambiguous
import AmbireCrypto.JsonText
import AmbireCrypto.Typed
import AmbireCrypto.Answers
import AmbireCrypto.Reread
import AmbireCrypto.Refusals
import AmbireCrypto.Expressible
import AmbireCrypto.Lib.Wire
import AmbireCrypto.Lib.BigEndian
import AmbireCrypto.ErrorWire
import AmbireCrypto.Lib.Heap
import AmbireCrypto.Boundary
import AmbireCrypto.Ledger
import AmbireCrypto.Counts
import AmbireCrypto.Bindings
import AmbireCrypto.Callbacks
