/-
A small network.

Two peers at most, over primitives that can be evaluated.  Closed runs of a driver with it
show that what is assumed of runs can hold, and what a run can come to.
-/
import NuttxWireguard.Noise

namespace NuttxWireguard.Sample

open Lib

def config : Config where
  maxPeers := 2
  maxAips := 1
  replayWords := 1
  pktsize := 1420
  loadThreshold := 20
  replayWords_pos := by decide
  replayWindow_lt := by decide

/-- The two peers, in the order of the table. -/
def first : Fin config.maxPeers := ⟨0, by decide⟩
def second : Fin config.maxPeers := ⟨1, by decide⟩

/-- A key with the given first and last bytes; `(8 * a, 64)` is clamped. -/
def key (first last : Byte) : Key := ⟨first :: (List.replicate 30 0 ++ [last]), by simp⟩

/-- An address in the order the code keeps it. -/
def address (a b c d : Byte) : U32 := readLe 32 [a, b, c, d]

/-- TAI64N time `k`. -/
def timestamp (k : Byte) : Bytes 12 := ⟨List.replicate 11 0 ++ [k], by simp⟩

/-- Four random bytes that read as the index `k`. -/
def draw (k : Byte) : Bytes 4 := ⟨[k, 0, 0, 0], rfl⟩

/-- An initiation from the first peer. -/
def initiation : MsgInit where
  sender := 7
  ephemeral := key 24 64
  encStatic := Crypto.plain.encryptField (key 3 0) (Bytes.zero 32) (Bytes.zero 32)
  encTimestamp := Crypto.plain.encryptField (timestamp 1) (Bytes.zero 32) (Bytes.zero 32)
  mac1 := Bytes.zero 16
  mac2 := Bytes.zero 16

/-- An inner packet from `10.0.0.host` to `10.0.0.1`, without payload. -/
def packet (host : Byte) : List Byte :=
  [0x45, 0, 0, 20, 0, 0, 0, 0, 64, 17, 0, 0, 10, 0, 0, host, 10, 0, 0, 1]

/-- A transport datagram of the session the initiation led to. -/
def datagram (counter : U64) (payload : List Byte) : List Byte :=
  dataHeader 1 counter ++ Crypto.plain.aeadEncrypt (padPayload payload) [] counter (Bytes.zero 32)

end NuttxWireguard.Sample
