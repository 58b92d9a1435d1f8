/-
Addresses with a port or a prefix length behind them.

What such a text says is one thing, and what a reader makes of it another: `strtol` stops at
the first character it does not know.  The two meet when there are digits and nothing else
behind the separator, at any width that a `long` can have.
-/
import NuttxWireguard.Lib.CText

namespace Lib

/-! ### What a text says -/

/-- The whole text is an address, a colon and a port. -/
def AddrPort (text : Text) (addr : BitVec 32) (port : Nat) : Prop :=
  ∃ host tail, text = host ++ ':' :: tail ∧ inetPton host = some addr ∧ Numeral tail port ∧
    1 ≤ port ∧ port ≤ 65535

/-- The whole text is an address, or an address, a slash and a prefix length. -/
def AddrPrefix (text : Text) (addr : BitVec 32) (len : Nat) : Prop :=
  (inetPton text = some addr ∧ len = 32) ∨
    ∃ host tail, text = host ++ '/' :: tail ∧ inetPton host = some addr ∧ Numeral tail len ∧
      len ≤ 32

section Separators

variable {text host tail : Text} {addr : BitVec 32} {port len : Nat} {w : LongWidth} {ch : Char}

theorem Numeral.not_mem (h : Numeral tail len) (hch : ch.isDigit = false) : ch ∉ tail := by
  intro hmem
  rw [h.digits ch hmem] at hch
  cases hch

/-- An address has no separator in it. -/
theorem not_mem_inetPton (h : inetPton host = some addr) (hch : ch.isDigit = false)
    (hdot : ch ≠ '.') : ch ∉ host := by
  intro hmem
  rcases (inetPton_text h).2 ch hmem with hc | hc
  · exact hdot hc
  · rw [hc] at hch
    cases hch

theorem strrchr_colon (h : Numeral tail port) (host : Text) :
    strrchr ':' (host ++ ':' :: tail) = some (host, tail) :=
  strrchr_append host (h.not_mem rfl)

theorem strchr_slash (h : inetPton host = some addr) (tail : Text) :
    strchr '/' (host ++ '/' :: tail) = some (host, tail) :=
  strchr_append (not_mem_inetPton h rfl (by decide)) tail

/-- There is no slash in an address. -/
theorem inetPton_slash (addr : BitVec 32) : inetPton (host ++ '/' :: tail) ≠ some addr := by
  intro h
  have hslash : '/' ∉ host ++ '/' :: tail := not_mem_inetPton h rfl (by decide)
  exact hslash (List.mem_append_right _ List.mem_cons_self)

/-! ### Digits are read as what they say -/

/-- Digits that are read as a number of at most 16 bits say that number. -/
theorem numeral_of_strtol_le (hne : tail ≠ [])
    (hdigits : ∀ a ∈ tail, a.isDigit = true) (hvalue : strtol w tail ≤ 65535) :
    Numeral tail (strtol w tail).toNat := by
  have hpow := w.two_pow_le
  exact numeral_of_strtol hne hdigits (by omega)

/-- **A port of digits**: the text says what is read. -/
theorem addrPort_of_read (hsep : strrchr ':' text = some (host, tail))
    (haddr : inetPton host = some addr) (hdigits : ∀ a ∈ tail, a.isDigit = true)
    (hlo : 1 ≤ strtol w tail) (hhi : strtol w tail ≤ 65535) :
    AddrPort text addr (strtol w tail).toNat := by
  have hne : tail ≠ [] := by
    rintro rfl
    rw [strtol_nil] at hlo
    exact absurd hlo (by decide)
  exact ⟨host, tail, (strrchr_some hsep).1, haddr, numeral_of_strtol_le hne hdigits hhi,
    by omega, by omega⟩

/-- What is said is read, and there are digits behind the last colon. -/
theorem AddrPort.read (h : AddrPort text addr port) : ∃ host tail,
    strrchr ':' text = some (host, tail) ∧ inetPton host = some addr ∧
      IntDigits tail ∧ strtol w tail = port := by
  obtain ⟨host, tail, rfl, haddr, hnum, -, hhi⟩ := h
  exact ⟨host, tail, strrchr_colon hnum host, haddr, hnum.intDigits (by omega),
    strtol_numeral_int hnum (by omega)⟩

theorem AddrPort.pos (h : AddrPort text addr port) : 1 ≤ port := by
  obtain ⟨-, -, -, -, -, hlo, -⟩ := h
  exact hlo

/-- **A prefix length of digits**: the text says what is read. -/
theorem addrPrefix_of_read (hsep : strchr '/' text = some (host, tail))
    (haddr : inetPton host = some addr) (hne : tail ≠ [])
    (hdigits : ∀ a ∈ tail, a.isDigit = true) (hhi : strtol w tail ≤ 32) :
    AddrPrefix text addr (strtol w tail).toNat :=
  Or.inr ⟨host, tail, strchr_some hsep, haddr,
    numeral_of_strtol_le hne hdigits (by omega), by omega⟩

/-- Without a slash, what is said is an address. -/
theorem AddrPrefix.bare (h : AddrPrefix text addr len) (hsep : strchr '/' text = none) :
    inetPton text = some addr ∧ len = 32 := by
  rcases h with h | ⟨host, tail, rfl, haddr, -⟩
  · exact h
  · rw [strchr_slash haddr] at hsep
    cases hsep

/-- With one, there are digits and nothing else behind it. -/
theorem AddrPrefix.read (h : AddrPrefix text addr len) (hsep : strchr '/' text = some (host, tail)) :
    inetPton host = some addr ∧ Numeral tail len ∧ len ≤ 32 := by
  rcases h with ⟨haddr, -⟩ | ⟨host', tail', rfl, haddr, hnum, hlen⟩
  · rw [strchr_some hsep] at haddr
    exact absurd haddr (inetPton_slash addr)
  · rw [strchr_slash haddr] at hsep
    obtain ⟨rfl, rfl⟩ := Prod.mk.inj (Option.some.inj hsep)
    exact ⟨haddr, hnum, hlen⟩

end Separators

end Lib
