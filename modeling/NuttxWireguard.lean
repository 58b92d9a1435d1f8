import NuttxWireguard.Lib.Bytes
import NuttxWireguard.Lib.Window
import NuttxWireguard.Lib.Run
import NuttxWireguard.Lib.Rotation
import NuttxWireguard.Lib.Tokens
import NuttxWireguard.Lib.Files
import NuttxWireguard.Lib.CText
import NuttxWireguard.Crypto
import NuttxWireguard.Records
import NuttxWireguard.Replay
import NuttxWireguard.ReplayRefinement
import NuttxWireguard.Noise
import NuttxWireguard.Messages
import NuttxWireguard.Lookup
import NuttxWireguard.Transcript
import NuttxWireguard.Sample
import NuttxWireguard.Observation
import NuttxWireguard.Session
import NuttxWireguard.Sessions
import NuttxWireguard.Counters
import NuttxWireguard.Roles
import NuttxWireguard.Ages
import NuttxWireguard.Routing
import NuttxWireguard.Carried
import NuttxWireguard.Flat.Noise
import NuttxWireguard.Flat.Netdev
import NuttxWireguard.Flat.System
import NuttxWireguard.Flat.Steps
import NuttxWireguard.Flat.Nonce
import NuttxWireguard.Flat.Frame
import NuttxWireguard.Flat.Routing
import NuttxWireguard.Flat.Timers
import NuttxWireguard.Kernel.Tai64n
import NuttxWireguard.Kernel.Noise
import NuttxWireguard.Kernel.Indices
import NuttxWireguard.Flat.Indices
import NuttxWireguard.Flat.Demux
import NuttxWireguard.Kernel.Netdev
import NuttxWireguard.Kernel.Ioctl
import NuttxWireguard.Kernel.Info
import NuttxWireguard.Kernel.System
import NuttxWireguard.Kernel.Steps
import NuttxWireguard.Kernel.Slots
import NuttxWireguard.Kernel.Traffic
import NuttxWireguard.Kernel.Demux
import NuttxWireguard.Kernel.AllowedIps
import NuttxWireguard.Kernel.Shutdown
import NuttxWireguard.Kernel.Timestamps
import NuttxWireguard.Kernel.Endpoint
import NuttxWireguard.Kernel.RoundTrip
import NuttxWireguard.Kernel.Handshake
import NuttxWireguard.Cli.Keys
import NuttxWireguard.Cli.Conf
import NuttxWireguard.Cli.Publish
import NuttxWireguard.Cli.Publishers
import NuttxWireguard.Cli.Setconf
import NuttxWireguard.Cli.SaveRestore
import NuttxWireguard.Flat.ConfFile
import NuttxWireguard.Flat.Lifetime
import NuttxWireguard.Flat.Load
import NuttxWireguard.Flat.PeerTable
import NuttxWireguard.Flat.Retries
import NuttxWireguard.Flat.SavedConf
import NuttxWireguard.Flat.Lifecycle
import NuttxWireguard.Cli.KeyLines
import NuttxWireguard.Cli.Record
import NuttxWireguard.Cli.Values
import NuttxWireguard.ConfLines
import NuttxWireguard.Flat.PeerText
import NuttxWireguard.Flat.Saveconf
import NuttxWireguard.Kernel.Rejected
import NuttxWireguard.Flat.RoundTrip
import NuttxWireguard.Kernel.Lifecycle
import NuttxWireguard.Kernel.TxQueue
import NuttxWireguard.Flat.Teardown
import NuttxWireguard.Flat.CookieReply
import NuttxWireguard.Flat.Entropy
import NuttxWireguard.Flat.Injected
import NuttxWireguard.Flat.LongestMatch
import NuttxWireguard.Keepalive
import NuttxWireguard.Kernel.KeyDerivation
import NuttxWireguard.Kernel.Noninterference
import NuttxWireguard.Kernel.Unsent
import NuttxWireguard.Lib.Primality
import NuttxWireguard.Lib.Montgomery
import NuttxWireguard.Lib.Limbs
import NuttxWireguard.Refc.FieldElement
import NuttxWireguard.Refc.X25519
import NuttxWireguard.Refc.KeyAgreement
import NuttxWireguard.Lib.Blocks
import NuttxWireguard.Refc.Poly1305
import NuttxWireguard.Refc.ChaCha20
import NuttxWireguard.Refc.Blake2s
import NuttxWireguard.Refc.Aead
import NuttxWireguard.Refc.Primitives
import NuttxWireguard.Transport
import NuttxWireguard.Flat.Identity
import NuttxWireguard.Kernel.Identity
import NuttxWireguard.Interop.Pairs
import NuttxWireguard.Flat.Wire
