import Mathlib

/-!
# Length-framed byte strings

Lists of byte strings written one after the other, each preceded by its length and
the list by its number of elements, as 64-bit little-endian numbers. The frame makes
the concatenation unambiguous: as long as no length overflows its 64 bits, equal
texts were written from equal lists.

## Results

* `Cuts.pair`, `Cuts.counted`, `Cuts.optional` — codes made of codes that can be cut off the front
  of a text can be cut off themselves.
-/

namespace Framing

open List

variable {r s : List UInt8}

/-- The little-endian bytes of `n`, truncated to `k` bytes. -/
def leBytes : Nat → Nat → List UInt8
  | 0, _ => []
  | k + 1, n => UInt8.ofNat (n % 256) :: leBytes k (n / 256)

/-- The 64-bit little-endian bytes of a length. -/
def le64 (n : Nat) : List UInt8 := leBytes 8 n

/-- A byte string after its length. -/
def frame (b : List UInt8) : List UInt8 := le64 b.length ++ b

/-- A list of byte strings after their number. -/
def frames (bs : List (List UInt8)) : List UInt8 := le64 bs.length ++ bs.flatMap frame

/-- No length in the list overflows 64 bits. -/
def Fits (bs : List (List UInt8)) : Prop :=
  bs.length < 2 ^ 64 ∧ ∀ b ∈ bs, b.length < 2 ^ 64

theorem length_leBytes (k n : Nat) : (leBytes k n).length = k := by
  induction k generalizing n with
  | zero => rfl
  | succ k ih => simp [leBytes, ih]

/-- Numbers that fit are determined by their bytes. -/
theorem leBytes_inj {k m n : Nat} (hm : m < 256 ^ k) (hn : n < 256 ^ k)
    (h : leBytes k m = leBytes k n) : m = n := by
  induction k generalizing m n with
  | zero =>
    simp only [Nat.pow_zero] at hm hn
    omega
  | succ k ih =>
    simp only [leBytes, List.cons.injEq] at h
    have hPow : 256 ^ (k + 1) = 256 * 256 ^ k := by ring
    have hHigh : m / 256 = n / 256 := by
      refine ih ?_ ?_ h.2
      · exact Nat.div_lt_of_lt_mul (hPow ▸ hm)
      · exact Nat.div_lt_of_lt_mul (hPow ▸ hn)
    have hLow : m % 256 = n % 256 := by
      have hBytes := congrArg UInt8.toNat h.1
      simp only [UInt8.toNat_ofNat'] at hBytes
      omega
    omega

/-- A length can be read off the front of a text. -/
theorem le64_append_inj {m n : Nat} (hm : m < 2 ^ 64) (hn : n < 2 ^ 64)
    (h : le64 m ++ r = le64 n ++ s) : m = n ∧ r = s := by
  have hLen : (le64 m).length = (le64 n).length := by simp [le64, length_leBytes]
  obtain ⟨hBytes, hRest⟩ := append_inj h hLen
  have hWidth : 2 ^ 64 = 256 ^ 8 := by norm_num
  exact ⟨leBytes_inj (hWidth ▸ hm) (hWidth ▸ hn) hBytes, hRest⟩

/-! ## Codes that can be cut off -/

section

variable {α β : Type} {P : α → Prop} {code : α → List UInt8}

/-- The codes of the values in `P` can be cut off the front of a text: where two texts start with
such codes, the values are the same and so is what follows. -/
def Cuts (P : α → Prop) (code : α → List UInt8) : Prop :=
  ∀ ⦃a b : α⦄ ⦃r s : List UInt8⦄, P a → P b → code a ++ r = code b ++ s → a = b ∧ r = s

/-- Codes of one length, different for different values. -/
theorem Cuts.of_length {k : Nat} (hLength : ∀ a, (code a).length = k)
    (hInj : ∀ a b, P a → P b → code a = code b → a = b) : Cuts P code := by
  intro a b r s ha hb h
  obtain ⟨hCode, hRest⟩ := append_inj h ((hLength a).trans (hLength b).symm)
  exact ⟨hInj a b ha hb hCode, hRest⟩

/-- The code of an image that determines the value. -/
theorem Cuts.comp {f : β → α} {R : β → Prop} (h : Cuts P code) (hR : ∀ x, R x → P (f x))
    (hInj : ∀ x y, f x = f y → x = y) : Cuts R fun x => code (f x) := by
  intro x y r s hx hy hEq
  obtain ⟨hImage, hRest⟩ := h (hR x hx) (hR y hy) hEq
  exact ⟨hInj x y hImage, hRest⟩

/-- Two codes, one behind the other. The second may depend on the value of the first. -/
theorem Cuts.pair {R : α → β → Prop} {more : α → β → List UInt8} (h : Cuts P code)
    (hMore : ∀ a, P a → Cuts (R a) (more a)) :
    Cuts (fun x : α × β => P x.1 ∧ R x.1 x.2) fun x => code x.1 ++ more x.1 x.2 := by
  rintro ⟨a, x⟩ ⟨b, y⟩ r s ⟨ha, hx⟩ ⟨hb, hy⟩ hEq
  simp only [append_assoc] at hEq
  obtain ⟨rfl, hRest⟩ := h ha hb hEq
  obtain ⟨rfl, hEnd⟩ := hMore a ha hx hy hRest
  exact ⟨rfl, hEnd⟩

/-- A list of codes after their number. -/
theorem Cuts.counted (h : Cuts P code) :
    Cuts (fun xs : List α => xs.length < 2 ^ 64 ∧ ∀ x ∈ xs, P x)
      fun xs => le64 xs.length ++ xs.flatMap code := by
  rintro xs ys r s ⟨hxs, hPx⟩ ⟨hys, hPy⟩ hEq
  simp only [append_assoc] at hEq
  obtain ⟨hLength, hBody⟩ := le64_append_inj hxs hys hEq
  clear hEq hxs hys
  -- the two lists have one length, so they are taken apart side by side
  induction xs generalizing ys with
  | nil =>
    cases ys with
    | nil => exact ⟨rfl, hBody⟩
    | cons y ys => cases hLength
  | cons x xs ih =>
    cases ys with
    | nil => cases hLength
    | cons y ys =>
      simp only [flatMap_cons, append_assoc] at hBody
      obtain ⟨rfl, hRest⟩ := h (hPx x mem_cons_self) (hPy y mem_cons_self) hBody
      obtain ⟨rfl, hEnd⟩ := ih (fun z hz => hPx z (mem_cons_of_mem _ hz))
        (fun z hz => hPy z (mem_cons_of_mem _ hz)) (Nat.succ.inj hLength) hRest
      exact ⟨rfl, hEnd⟩

/-- The byte of a flag. -/
def flag (b : Bool) : UInt8 := if b then 1 else 0

theorem flag_inj {a b : Bool} (h : flag a = flag b) : a = b := by
  cases a <;> cases b <;> first | rfl | cases h

/-- A value that may be missing, after the flag that says so. -/
def optional (code : α → List UInt8) (x : Option α) : List UInt8 :=
  flag x.isSome :: (x.map code).getD []

theorem Cuts.optional (h : Cuts P code) :
    Cuts (fun x : Option α => ∀ a ∈ x, P a) (Framing.optional code) := by
  intro x y r s hx hy hEq
  obtain ⟨hFlag, hRest⟩ := List.cons.inj hEq
  have hSome := flag_inj hFlag
  cases x with
  | none =>
    cases y with
    | none => exact ⟨rfl, hRest⟩
    | some b => cases hSome
  | some a =>
    cases y with
    | none => cases hSome
    | some b =>
      obtain ⟨rfl, hEnd⟩ := h (hx a rfl) (hy b rfl) hRest
      exact ⟨rfl, hEnd⟩

end

/-- A framed byte string can be cut off the front of a text. -/
theorem cuts_frame : Cuts (fun b : List UInt8 => b.length < 2 ^ 64) frame := by
  intro b c r s hb hc h
  simp only [frame, append_assoc] at h
  obtain ⟨hLen, hBody⟩ := le64_append_inj hb hc h
  exact append_inj hBody hLen

/-- **Key lemma:** a framed list can be cut off the front of a text. -/
theorem frames_append_inj {bs cs : List (List UInt8)} (hbs : Fits bs)
    (hcs : Fits cs) (h : frames bs ++ r = frames cs ++ s) : bs = cs ∧ r = s :=
  cuts_frame.counted hbs hcs h

/-- Little-endian numbers of one width. -/
theorem cuts_leBytes (k : Nat) : Cuts (fun n => n < 256 ^ k) (leBytes k) :=
  .of_length (length_leBytes k) fun _ _ hm hn h => leBytes_inj hm hn h

/-- The UTF-8 bytes of a list of characters. -/
def utf8 (t : List Char) : List UInt8 := t.flatMap String.utf8EncodeChar

/-- The bytes of a character list determine it. -/
theorem utf8_injective {s t : List Char} (h : utf8 s = utf8 t) : s = t := by
  have hBytes : s.utf8Encode = t.utf8Encode := congrArg List.toByteArray h
  rw [← String.toByteArray_ofList, ← String.toByteArray_ofList] at hBytes
  exact String.ofList_inj.mp (String.toByteArray_inj.mp hBytes)

end Framing
