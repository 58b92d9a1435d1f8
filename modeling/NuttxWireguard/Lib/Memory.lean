/-
Byte memory, with nothing to keep two buffers apart.

A memory is a byte at every address.  A buffer is an address range that ends below the
caller's stack pointer; two of them may overlap in any way.  The local arrays of a function
start at its stack pointer, so they overlap no buffer it was given.

What a call does is therefore said of the addresses below its stack pointer only
(`AgreesBelow`): there it must leave what some plain writes would.
-/
import NuttxWireguard.Lib.Bytes

namespace Lib

/-- A byte at every address. -/
abbrev Memory := Nat → Byte

namespace Memory

variable {m m' m'' : Memory} {top a b n k : Nat} {bytes bytes' : List Byte}

/-- The `n` bytes from `a` on. -/
def read (m : Memory) (a n : Nat) : List Byte := (List.range n).map fun i => m (a + i)

/-- `bytes` written from `a` on. -/
def write (m : Memory) (a : Nat) (bytes : List Byte) : Memory := fun i =>
  if a ≤ i ∧ i < a + bytes.length then bytes.getD (i - a) 0 else m i

/-- One byte written. -/
def set (m : Memory) (a : Nat) (v : Byte) : Memory := m.write a [v]

/-- `memset` to zero. -/
def zero (m : Memory) (a n : Nat) : Memory := m.write a (List.replicate n 0)

/-- `memcpy`. -/
def copy (m : Memory) (dst src n : Nat) : Memory := m.write dst (m.read src n)

/-- The two ranges share no address. -/
def Apart (a n b k : Nat) : Prop := a + n ≤ b ∨ b + k ≤ a

instance : Decidable (Apart a n b k) := inferInstanceAs (Decidable (_ ∨ _))

theorem Apart.symm (h : Apart a n b k) : Apart b k a n := Or.symm h

/-! ### Reading -/

@[simp] theorem length_read (m : Memory) (a n : Nat) : (m.read a n).length = n := by
  simp [read]

theorem read_congr (h : ∀ i < n, m (a + i) = m' (b + i)) : m.read a n = m'.read b n := by
  unfold read
  exact List.map_congr_left fun i hi => h i (List.mem_range.mp hi)

theorem read_add (m : Memory) (a n k : Nat) : m.read a (n + k) = m.read a n ++ m.read (a + n) k := by
  unfold read
  rw [List.range_add, List.map_append, List.map_map]
  congr 1
  refine List.map_congr_left fun i _ => ?_
  exact congrArg m (Nat.add_assoc a n i).symm

/-! ### Writing -/

theorem write_out {i : Nat} (h : i < a ∨ a + bytes.length ≤ i) : m.write a bytes i = m i := by
  unfold write
  rw [if_neg (by omega)]

theorem write_in {i : Nat} (h : i < bytes.length) : m.write a bytes (a + i) = bytes.getD i 0 := by
  unfold write
  rw [if_pos ⟨by omega, by omega⟩, Nat.add_sub_cancel_left]

theorem set_apply (m : Memory) (a : Nat) (v : Byte) (i : Nat) :
    m.set a v i = if i = a then v else m i := by
  unfold set
  by_cases h : i = a
  · subst h
    rw [if_pos rfl]
    exact write_in (i := 0) Nat.one_pos
  · rw [if_neg h, write_out]
    rw [List.length_singleton]
    omega

/-- **What was written is read back.** -/
theorem read_write_self (m : Memory) (a : Nat) (bytes : List Byte) :
    (m.write a bytes).read a bytes.length = bytes := by
  unfold read
  refine List.ext_getElem (by simp) fun i _ hi => ?_
  rw [List.getElem_map, List.getElem_range, write_in hi, List.getD_eq_getElem _ _ hi]

theorem read_write_of_length (h : bytes.length = n) : (m.write a bytes).read a n = bytes := by
  rw [← h, read_write_self]

/-- **What lies elsewhere is not changed.** -/
theorem read_write_apart (h : Apart a bytes.length b k) :
    (m.write a bytes).read b k = m.read b k := by
  refine read_congr fun i hi => write_out ?_
  rcases h with h | h
  · exact Or.inr (by omega)
  · exact Or.inl (by omega)

/-- What was written at the start of a range, and the rest of it. -/
theorem read_write_start (h : bytes.length ≤ n) : (m.write a bytes).read a n
    = bytes ++ m.read (a + bytes.length) (n - bytes.length) := by
  conv_lhs => rw [← Nat.add_sub_cancel' h]
  rw [read_add, read_write_self, read_write_apart (Or.inl (Nat.le_refl _))]

/-- Any part of a cleared range. -/
theorem read_zero_part (h : a ≤ b) (hle : b + k ≤ a + n) :
    (m.zero a n).read b k = List.replicate k 0 := by
  refine List.eq_replicate_iff.mpr ⟨length_read _ _ _, fun v hv => ?_⟩
  unfold read at hv
  obtain ⟨i, hi, rfl⟩ := List.mem_map.mp hv
  have hlt := List.mem_range.mp hi
  have hin : b - a + i < (List.replicate n (0 : Byte)).length := by
    rw [List.length_replicate]
    omega
  unfold zero
  rw [show b + i = a + (b - a + i) by omega, write_in hin, List.getD_eq_getElem _ _ hin,
    List.getElem_replicate]

/-- The later of two writes to one place counts. -/
theorem write_write (h : bytes'.length = bytes.length) :
    (m.write a bytes).write a bytes' = m.write a bytes' := by
  funext i
  by_cases hi : a ≤ i ∧ i < a + bytes'.length
  · unfold write
    rw [if_pos hi, if_pos hi]
  · have hout : i < a ∨ a + bytes'.length ≤ i := by omega
    rw [write_out hout, write_out hout, write_out (by omega)]

/-- The pieces of a range, the second one written over. -/
theorem read_snoc_set (m : Memory) (a n : Nat) (v : Byte) :
    (m.set (a + n) v).read a (n + 1) = m.read a n ++ [v] := by
  unfold set
  rw [read_add, read_write_apart (Or.inr (Nat.le_refl _))]
  congr 1
  exact read_write_of_length rfl

/-! ### What a caller can see -/

/-- The two memories hold the same below `top`. -/
def AgreesBelow (top : Nat) (m m' : Memory) : Prop := ∀ i < top, m i = m' i

theorem AgreesBelow.refl (m : Memory) : AgreesBelow top m m := fun _ _ => rfl

theorem AgreesBelow.trans (h : AgreesBelow top m m') (h' : AgreesBelow top m' m'') :
    AgreesBelow top m m'' := fun i hi => (h i hi).trans (h' i hi)

theorem AgreesBelow.mono {low : Nat} (h : AgreesBelow top m m') (hle : low ≤ top) :
    AgreesBelow low m m' := fun i hi => h i (Nat.lt_of_lt_of_le hi hle)

theorem AgreesBelow.read (h : AgreesBelow top m m') (hlive : a + n ≤ top) :
    m.read a n = m'.read a n := read_congr fun i hi => h (a + i) (by omega)

/-- The same write on both sides. -/
theorem AgreesBelow.write (h : AgreesBelow top m m') (a : Nat) (bytes : List Byte) :
    AgreesBelow top (m.write a bytes) (m'.write a bytes) := by
  intro i hi
  unfold Memory.write
  rw [h i hi]

/-- A write to a local array is not seen. -/
theorem AgreesBelow.writeLocal (h : AgreesBelow top m m') (hlocal : top ≤ a)
    (bytes : List Byte) : AgreesBelow top (m.write a bytes) m' := by
  intro i hi
  rw [write_out (Or.inl (by omega)), h i hi]

/-! ### Several outputs -/

/-- The outputs written one after the other. -/
def writes (m : Memory) (outs : List (Nat × List Byte)) : Memory :=
  outs.foldl (fun m o => m.write o.1 o.2) m

/-- No two of them overlap. -/
def AllApart (outs : List (Nat × List Byte)) : Prop :=
  outs.Pairwise fun o p => Apart o.1 o.2.length p.1 p.2.length

theorem read_writes_apart {outs : List (Nat × List Byte)}
    (h : ∀ o ∈ outs, Apart o.1 o.2.length b k) : (m.writes outs).read b k = m.read b k := by
  induction outs generalizing m with
  | nil => rfl
  | cons o outs ih =>
      obtain ⟨hhead, htail⟩ := List.forall_mem_cons.mp h
      show ((m.write o.1 o.2).writes outs).read b k = m.read b k
      rw [ih htail, read_write_apart hhead]

theorem read_writes {outs : List (Nat × List Byte)} (hapart : AllApart outs)
    {o : Nat × List Byte} (ho : o ∈ outs) : (m.writes outs).read o.1 o.2.length = o.2 := by
  induction outs generalizing m with
  | nil => cases ho
  | cons p outs ih =>
      obtain ⟨hhead, htail⟩ := List.pairwise_cons.mp hapart
      show ((m.write p.1 p.2).writes outs).read o.1 o.2.length = o.2
      rcases List.mem_cons.mp ho with rfl | hmem
      · rw [read_writes_apart fun q hq => (hhead q hq).symm, read_write_self]
      · exact ih htail hmem

/-- A call from `m` to `m'` has exactly these outputs, for a caller with stack pointer `top`. -/
structure Leaves (top : Nat) (m m' : Memory) (outs : List (Nat × List Byte)) : Prop where
  /-- The caller sees the outputs written in order, and no other change. -/
  effect : AgreesBelow top m' (m.writes outs)
  /-- Each is found in its buffer, if they are apart. -/
  each : AllApart outs → ∀ o ∈ outs, m'.read o.1 o.2.length = o.2

/-- **A call that agrees with the writes to live buffers has these outputs.** -/
theorem Leaves.of_effect {outs : List (Nat × List Byte)} (h : AgreesBelow top m' (m.writes outs))
    (hlive : ∀ o ∈ outs, o.1 + o.2.length ≤ top) : Leaves top m m' outs :=
  ⟨h, fun hapart o ho => (h.read (hlive o ho)).trans (read_writes hapart ho)⟩

end Memory

/-- A live buffer of `n` bytes: it ends at or below the stack pointer `top`. -/
structure Buffer (top n : Nat) where
  addr : Nat
  live : addr + n ≤ top

namespace Buffer

variable {top n : Nat}

/-- What it holds. -/
def read (m : Memory) (b : Buffer top n) : List Byte := m.read b.addr n

/-- The buffer as the callees of the function whose frame takes `size` bytes see it. -/
def under (b : Buffer top n) (size : Nat) : Buffer (top + size) n :=
  ⟨b.addr, Nat.le_add_right_of_le b.live⟩

/-- The array of `n` bytes at offset `off` of a frame of `size` bytes, handed to a callee. -/
def inFrame (top off n : Nat) {size : Nat} (h : off + n ≤ size) : Buffer (top + size) n :=
  ⟨top + off, by omega⟩

@[simp] theorem under_addr (b : Buffer top n) (size : Nat) : (b.under size).addr = b.addr := rfl

@[simp] theorem inFrame_addr (top off n : Nat) {size : Nat} (h : off + n ≤ size) :
    (inFrame top off n h).addr = top + off := rfl

@[simp] theorem length_read (m : Memory) (b : Buffer top n) : (b.read m).length = n :=
  m.length_read b.addr n

end Buffer

end Lib
