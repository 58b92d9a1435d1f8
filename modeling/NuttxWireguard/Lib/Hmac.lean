/-
HMAC, and the chain of keys derived with it.

`hmac` is RFC 2104 over any hash of byte strings and any block size, and `derive` the
expansion HKDF makes of it: each key is the MAC, under the extracted key, of the one before
and a counter byte.

A hash is computed in pieces through a state.  The one law assumed of the state is that
feeding it two pieces is feeding it both at once.
-/
import NuttxWireguard.Lib.Bytes

namespace Lib

/-! ### A hash fed in pieces -/

/-- A way to compute `hash` by feeding a state. -/
structure Streamed {α β : Type} (hash : List α → β) where
  State : Type
  init : State
  update : State → List α → State
  final : State → β
  /-- Updating in pieces is one update of the concatenation. -/
  update_append : ∀ s a b, update (update s a) b = update s (a ++ b)
  final_update : ∀ a, final (update init a) = hash a

namespace Streamed

variable {α β : Type} {hash : List α → β}

theorem final_two (h : Streamed hash) (a b : List α) :
    h.final (h.update (h.update h.init a) b) = hash (a ++ b) := by
  rw [h.update_append, h.final_update]

/-- The state that keeps everything it was fed. -/
def buffered (hash : List α → β) : Streamed hash where
  State := List α
  init := []
  update := (· ++ ·)
  final := hash
  update_append := List.append_assoc
  final_update := fun _ => rfl

end Streamed

/-! ### RFC 2104 -/

/-- Byte by byte. -/
def xorBytes (a b : List Byte) : List Byte := List.zipWith (· ^^^ ·) a b

theorem xorBytes_replicate (a : List Byte) (v : Byte) :
    xorBytes a (List.replicate a.length v) = a.map (· ^^^ v) := by
  unfold xorBytes
  induction a with
  | nil => rfl
  | cons x a ih => rw [List.length_cons, List.replicate_succ, List.zipWith_cons_cons, ih, List.map_cons]

section

variable (hash : List Byte → List Byte) (block : Nat)

/-- The key of one block: a longer one is hashed first, and zeros are appended. -/
def blockKey (key : List Byte) : List Byte :=
  let key := if key.length > block then hash key else key
  key ++ List.replicate (block - key.length) 0

theorem length_blockKey (hhash : ∀ a, (hash a).length ≤ block) (key : List Byte) :
    (blockKey hash block key).length = block := by
  unfold blockKey
  dsimp only
  rw [List.length_append, List.length_replicate]
  split
  · have := hhash key
    omega
  · omega

def ipad : List Byte := List.replicate block 0x36

def opad : List Byte := List.replicate block 0x5c

/-- `H(K xor opad, H(K xor ipad, text))`. -/
def hmac (key text : List Byte) : List Byte :=
  hash (xorBytes (blockKey hash block key) (opad block) ++
    hash (xorBytes (blockKey hash block key) (ipad block) ++ text))

end

/-! ### The chain of keys -/

section

variable (mac : List Byte → List Byte → List Byte)

/-- The `i`-th key derived from `input` under `key`; there is nothing before the first. -/
def derive (key input : List Byte) : Nat → List Byte
  | 0 => []
  | i + 1 => mac (mac key input) (derive key input i ++ [BitVec.ofNat 8 (i + 1)])

end

end Lib
