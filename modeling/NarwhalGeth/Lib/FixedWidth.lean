import Mathlib.Algebra.Order.Ring.Nat
import Mathlib.Data.Set.Function
import Mathlib.Data.Set.Prod

/-!
# Encodings of a fixed width

An encoding of a fixed width can be cut off the front of a string. So a record of such encodings
determines its fields, and a list of them determines its elements once their number is known.
-/

/-- On the values in `s`, the encoding has `width` symbols and is injective. -/
structure FixedWidth {α β : Type*} (s : Set α) (width : ℕ) (f : α → List β) : Prop where
  length_eq : ∀ a ∈ s, (f a).length = width
  injOn : Set.InjOn f s

namespace FixedWidth

variable {α α' β : Type*} {s : Set α} {s' : Set α'} {width width' : ℕ} {f : α → List β}
  {f' : α' → List β} {as bs : List α} {rest rest' : List β}

section

variable (h : FixedWidth s width f)

include h

theorem append_inj {a b : α} (ha : a ∈ s) (hb : b ∈ s) (heq : f a ++ rest = f b ++ rest') :
    a = b ∧ rest = rest' := by
  have hlength : (f a).length = (f b).length := by rw [h.length_eq a ha, h.length_eq b hb]
  obtain ⟨hfront, hrest⟩ := List.append_inj heq hlength
  exact ⟨h.injOn ha hb hfront, hrest⟩

/-- A known number of values can be read off the front of a string. -/
theorem flatMap_append_inj (ha : ∀ a ∈ as, a ∈ s) (hb : ∀ b ∈ bs, b ∈ s)
    (hlength : as.length = bs.length) (heq : as.flatMap f ++ rest = bs.flatMap f ++ rest') :
    as = bs ∧ rest = rest' := by
  induction as generalizing bs with
  | nil =>
    obtain rfl := List.eq_nil_of_length_eq_zero hlength.symm
    exact ⟨rfl, heq⟩
  | cons a as ih =>
    obtain - | ⟨b, bs⟩ := bs
    · cases hlength
    · rw [List.flatMap_cons, List.flatMap_cons, List.append_assoc, List.append_assoc] at heq
      obtain ⟨rfl, hrest⟩ := h.append_inj (ha _ List.mem_cons_self) (hb _ List.mem_cons_self) heq
      obtain ⟨rfl, rfl⟩ := ih (fun a' ha' => ha a' (List.mem_cons_of_mem _ ha'))
        (fun b' hb' => hb b' (List.mem_cons_of_mem _ hb')) (Nat.succ.inj hlength) hrest
      exact ⟨rfl, rfl⟩

theorem length_flatMap (ha : ∀ a ∈ as, a ∈ s) : (as.flatMap f).length = as.length * width := by
  induction as with
  | nil => simp
  | cons a as ih =>
    rw [List.flatMap_cons, List.length_append, h.length_eq a (ha a List.mem_cons_self),
      ih fun b hb => ha b (List.mem_cons_of_mem _ hb), List.length_cons, Nat.succ_mul,
      Nat.add_comm]

/-- The elements of a list are determined by the string of their encodings. -/
theorem flatMap_inj (hwidth : 0 < width) (ha : ∀ a ∈ as, a ∈ s) (hb : ∀ b ∈ bs, b ∈ s)
    (heq : as.flatMap f = bs.flatMap f) : as = bs := by
  have hlength : as.length * width = bs.length * width := by
    rw [← h.length_flatMap ha, ← h.length_flatMap hb, heq]
  exact (h.flatMap_append_inj ha hb (Nat.eq_of_mul_eq_mul_right hwidth hlength)
    (congrArg (· ++ []) heq)).1

theorem prod (h' : FixedWidth s' width' f') :
    FixedWidth (s ×ˢ s') (width + width') fun p => f p.1 ++ f' p.2 where
  length_eq p hp := by rw [List.length_append, h.length_eq _ hp.1, h'.length_eq _ hp.2]
  injOn p hp q hq heq := by
    obtain ⟨hfst, hsnd⟩ := h.append_inj hp.1 hq.1 heq
    exact Prod.ext hfst (h'.injOn hp.2 hq.2 hsnd)

end

end FixedWidth

/-! ## Little-endian numbers -/

/-- The lowest `width` bytes of a number, the lowest one first. -/
def leBytes : ℕ → ℕ → List UInt8
  | 0, _ => []
  | width + 1, n => UInt8.ofNat n :: leBytes width (n / 256)

theorem length_leBytes (width n : ℕ) : (leBytes width n).length = width := by
  induction width generalizing n with
  | zero => rfl
  | succ width ih => rw [leBytes, List.length_cons, ih]

theorem leBytes_inj {width n m : ℕ} (hn : n < 256 ^ width) (hm : m < 256 ^ width)
    (heq : leBytes width n = leBytes width m) : n = m := by
  induction width generalizing n m with
  | zero => rw [Nat.lt_one_iff.mp hn, Nat.lt_one_iff.mp hm]
  | succ width ih =>
    rw [leBytes, leBytes, List.cons.injEq] at heq
    have hlow : n % 256 = m % 256 := by simpa using congrArg UInt8.toNat heq.1
    have hhigh : n / 256 = m / 256 :=
      ih (Nat.div_lt_of_lt_mul (by rwa [← Nat.pow_succ'])) (Nat.div_lt_of_lt_mul
        (by rwa [← Nat.pow_succ'])) heq.2
    omega

theorem fixedWidth_leBytes (width : ℕ) :
    FixedWidth {n | n < 256 ^ width} width (leBytes width) where
  length_eq n _ := length_leBytes width n
  injOn _ hn _ hm heq := leBytes_inj hn hm heq

/-- The number that bytes stand for, the lowest one first. -/
def leNat : List UInt8 → ℕ
  | [] => 0
  | byte :: bytes => byte.toNat + 256 * leNat bytes

theorem leNat_leBytes {width n : ℕ} (h : n < 256 ^ width) : leNat (leBytes width n) = n := by
  induction width generalizing n with
  | zero => exact (Nat.lt_one_iff.mp h).symm
  | succ width ih =>
    have hhigh : leNat (leBytes width (n / 256)) = n / 256 :=
      ih (Nat.div_lt_of_lt_mul (by rwa [← Nat.pow_succ']))
    have hlow : (UInt8.ofNat n).toNat = n % 256 := by simp
    rw [leBytes, leNat, hhigh, hlow]
    omega
