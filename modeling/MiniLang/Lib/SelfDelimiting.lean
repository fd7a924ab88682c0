import Mathlib.Data.BitVec
import Mathlib.Tactic.Common

/-!
# Self-delimiting encodings

An encoding is self-delimiting when an encoded value shows where it ends: the value and what comes
after it can be told from the two put together. Such encodings may be put one after the other, which
is all that the encoding of a record does, and a count in front makes one for lists.
-/

namespace Encoding

variable {α β γ : Type*} {P : α → Prop} {Q : Nat → Prop} {enc : α → List γ}
  {count : Nat → List γ}

/-- For the values in `P`. -/
def SelfDelimiting (P : α → Prop) (enc : α → List γ) : Prop :=
  ∀ ⦃a b : α⦄ ⦃s t : List γ⦄, P a → P b → enc a ++ s = enc b ++ t → a = b ∧ s = t

namespace SelfDelimiting

theorem inj (h : SelfDelimiting P enc) {a b : α} (ha : P a) (hb : P b) (heq : enc a = enc b) :
    a = b :=
  (h ha hb (congrArg (· ++ []) heq)).1

/-- Codes of one length. -/
theorem of_length {n : Nat} (hlength : ∀ a, P a → (enc a).length = n)
    (hinj : ∀ a b, P a → P b → enc a = enc b → a = b) : SelfDelimiting P enc := by
  intro a b s t ha hb heq
  obtain ⟨hcode, hrest⟩ := List.append_inj heq ((hlength a ha).trans (hlength b hb).symm)
  exact ⟨hinj a b ha hb hcode, hrest⟩

/-- What stands for a value is encoded. -/
theorem comp (h : SelfDelimiting P enc) {P' : β → Prop} {f : β → α} (hP : ∀ b, P' b → P (f b))
    (hf : ∀ a b, P' a → P' b → f a = f b → a = b) : SelfDelimiting P' fun b ↦ enc (f b) := by
  intro a b s t ha hb heq
  obtain ⟨heq, hrest⟩ := h (hP a ha) (hP b hb) heq
  exact ⟨hf a b ha hb heq, hrest⟩

/-- As many codes on both sides. -/
theorem flatMap (h : SelfDelimiting P enc) {as bs : List α} {s t : List γ} (ha : ∀ a ∈ as, P a)
    (hb : ∀ b ∈ bs, P b) (hlength : as.length = bs.length)
    (heq : as.flatMap enc ++ s = bs.flatMap enc ++ t) : as = bs ∧ s = t := by
  induction as generalizing bs with
  | nil =>
    obtain rfl := List.eq_nil_of_length_eq_zero hlength.symm
    exact ⟨rfl, heq⟩
  | cons a as ih =>
    obtain ⟨b, bs, rfl⟩ := List.exists_cons_of_length_eq_add_one hlength.symm
    obtain ⟨haP, has⟩ := List.forall_mem_cons.mp ha
    obtain ⟨hbP, hbs⟩ := List.forall_mem_cons.mp hb
    rw [List.flatMap_cons, List.flatMap_cons, List.append_assoc, List.append_assoc] at heq
    obtain ⟨rfl, hmore⟩ := h haP hbP heq
    rw [List.length_cons, List.length_cons, Nat.add_left_inj] at hlength
    obtain ⟨hlist, hrest⟩ := ih has hbs hlength hmore
    exact ⟨congrArg _ hlist, hrest⟩

/-- A list after its length. -/
theorem counted (hcount : SelfDelimiting Q count) (h : SelfDelimiting P enc) :
    SelfDelimiting (fun as : List α ↦ Q as.length ∧ ∀ a ∈ as, P a)
      fun as ↦ count as.length ++ as.flatMap enc := by
  intro as bs s t ha hb heq
  rw [List.append_assoc, List.append_assoc] at heq
  obtain ⟨hlength, heq⟩ := hcount ha.1 hb.1 heq
  exact h.flatMap ha.2 hb.2 hlength heq

end SelfDelimiting

/-! ## Numbers -/

/-- The lowest `k` bytes of a number, the lowest first. -/
def leBytes : Nat → Nat → List UInt8
  | 0, _ => []
  | k + 1, n => UInt8.ofNat n :: leBytes k (n / 256)

theorem length_leBytes (k n : Nat) : (leBytes k n).length = k := by
  induction k generalizing n with
  | zero => rfl
  | succ k ih => rw [leBytes, List.length_cons, ih]

theorem leBytes_inj {k n m : Nat} (hn : n < 256 ^ k) (hm : m < 256 ^ k)
    (h : leBytes k n = leBytes k m) : n = m := by
  induction k generalizing n m with
  | zero =>
    rw [Nat.pow_zero, Nat.lt_one_iff] at hn hm
    rw [hn, hm]
  | succ k ih =>
    obtain ⟨hlow, hhigh⟩ := List.cons.inj h
    have hmod : n % 256 = m % 256 := by
      have := congrArg UInt8.toNat hlow
      rwa [UInt8.toNat_ofNat', UInt8.toNat_ofNat'] at this
    have hdiv : n / 256 = m / 256 :=
      ih (Nat.div_lt_of_lt_mul (Nat.pow_succ' ▸ hn)) (Nat.div_lt_of_lt_mul (Nat.pow_succ' ▸ hm)) hhigh
    rw [← Nat.div_add_mod n 256, ← Nat.div_add_mod m 256, hdiv, hmod]

theorem selfDelimiting_leBytes (k : Nat) : SelfDelimiting (· < 256 ^ k) (leBytes k) :=
  .of_length (fun _ _ ↦ length_leBytes ..) fun _ _ ↦ leBytes_inj

end Encoding
