import Mathlib.Data.Nat.Basic
import Mathlib.Data.Set.Insert
import Mathlib.Data.BitVec

/-!
# Addresses and the bytes of objects

Rounding an address up to a multiple of an alignment, on numbers and with a mask on machine
words, the regions of objects, and a memory that knows of each byte which object it belongs
to.

Main results:

- Theorem {lit}`alignUp_le_iff`: the rounded address is the least multiple that is not
  smaller.
- Theorem {lit}`toNat_and_not_sub_one`: the mask of a power of two rounds down.
- Theorem {lit}`Memory.Holds.congr` and {lit}`Memory.Holds.load_eq`: an object is read as it
  was stored, whatever happens outside its region.
-/

namespace Bytes

universe u

/-! ## Rounding -/

/-- The least multiple of {lit}`a` that is not below {lit}`x`. -/
def alignUp (x a : Nat) : Nat :=
  (x + a - 1) / a * a

section

variable {x y a b : Nat}

theorem dvd_alignUp (x a : Nat) : a ∣ alignUp x a :=
  Nat.dvd_mul_left a _

theorem alignUp_le_iff (ha : 0 < a) (hy : a ∣ y) : alignUp x a ≤ y ↔ x ≤ y := by
  rcases hy with ⟨n, rfl⟩
  rw [alignUp, Nat.mul_comm a n, Nat.mul_le_mul_right_iff ha, Nat.div_le_iff_le_mul ha]
  omega

theorem le_alignUp (ha : 0 < a) : x ≤ alignUp x a :=
  (alignUp_le_iff ha (dvd_alignUp x a)).mp le_rfl

theorem alignUp_le_add (x a : Nat) : alignUp x a ≤ x + a - 1 :=
  Nat.div_mul_le_self _ _

/-- A finer alignment is reached earlier. -/
theorem alignUp_le_alignUp (ha : 0 < a) (hb : 0 < b) (hdvd : a ∣ b) : alignUp x a ≤ alignUp x b :=
  (alignUp_le_iff ha (hdvd.trans (dvd_alignUp x b))).mpr (le_alignUp hb)

theorem alignUp_add_of_dvd (ha : 0 < a) (hy : a ∣ y) : alignUp (x + y) a = alignUp x a + y := by
  rcases hy with ⟨n, rfl⟩
  have hsum : x + a * n + a - 1 = x + a - 1 + n * a := by
    rw [Nat.mul_comm a n]
    omega
  rw [alignUp, hsum, Nat.add_mul_div_right _ _ ha, Nat.add_mul, Nat.mul_comm n a, alignUp]

/-- Of two powers of two the smaller one divides the other. -/
theorem dvd_or_dvd_of_twoPow (ha : ∃ k, a = 2 ^ k) (hb : ∃ k, b = 2 ^ k) :
    a ∣ b ∧ a ≤ b ∨ b ∣ a ∧ b < a := by
  rcases ha with ⟨j, rfl⟩
  rcases hb with ⟨k, rfl⟩
  rcases Nat.lt_or_ge k j with hlt | hle
  · exact .inr ⟨Nat.pow_dvd_pow 2 hlt.le, Nat.pow_lt_pow_right (by omega) hlt⟩
  · exact .inl ⟨Nat.pow_dvd_pow 2 hle, Nat.pow_le_pow_right (by omega) hle⟩

end

/-! ## Masks -/

/-- {lit}`x & ~(a - 1)` for a power of two. -/
theorem toNat_and_not_sub_one {w : Nat} (x a : BitVec w) (ha : ∃ k, a.toNat = 2 ^ k) :
    (x &&& ~~~(a - 1)).toNat = x.toNat / a.toNat * a.toNat := by
  rcases ha with ⟨k, hk⟩
  have hkw : k < w := by
    have hlt := a.isLt
    rw [hk] at hlt
    exact (Nat.pow_lt_pow_iff_right (by omega)).mp hlt
  have hmask : ∀ i, (a - 1).getLsbD i = decide (i < k) := by
    intro i
    have hone : (1 : BitVec w).toNat = 1 := by
      rw [BitVec.ofNat_eq_ofNat, BitVec.toNat_ofNat,
        Nat.mod_eq_of_lt (Nat.one_lt_two_pow (by omega))]
    have hle : (1 : BitVec w) ≤ a := by
      rw [BitVec.le_def, hone, hk]
      exact Nat.one_le_two_pow
    rw [BitVec.getLsbD, BitVec.toNat_sub_of_le hle, hone, hk, Nat.testBit_two_pow_sub_one]
  have hshift : x &&& ~~~(a - 1) = (x >>> k) <<< k := by
    apply BitVec.eq_of_getLsbD_eq
    intro i hi
    rw [BitVec.getLsbD_and, BitVec.getLsbD_not, hmask, BitVec.getLsbD_shiftLeft,
      BitVec.getLsbD_ushiftRight]
    by_cases hik : i < k
    · simp [hik]
    · simp [hik, hi, Nat.add_sub_cancel' (Nat.le_of_not_lt hik)]
  have hlt : x.toNat / 2 ^ k * 2 ^ k < 2 ^ w :=
    lt_of_le_of_lt (Nat.div_mul_le_self _ _) x.isLt
  rw [hshift, hk, BitVec.toNat_shiftLeft, BitVec.toNat_ushiftRight, Nat.shiftRight_eq_div_pow,
    Nat.shiftLeft_eq, Nat.mod_eq_of_lt hlt]

/-! ## Regions and objects -/

/-- The bytes of an object. -/
structure Region where
  start : Nat
  size : Nat
deriving DecidableEq, Repr

namespace Region

/-- The address after the last byte. -/
def stop (r : Region) : Nat :=
  r.start + r.size

/-- The address is one of a byte of the region. -/
def Has (r : Region) (x : Nat) : Prop :=
  r.start ≤ x ∧ x < r.stop

instance (r : Region) (x : Nat) : Decidable (r.Has x) :=
  inferInstanceAs (Decidable (_ ∧ _))

/-- The regions have no byte in common. -/
def Disjoint (r q : Region) : Prop :=
  r.stop ≤ q.start ∨ q.stop ≤ r.start

theorem Disjoint.not_has {r q : Region} (h : r.Disjoint q) {x : Nat} (hx : q.Has x) :
    ¬ r.Has x := by
  unfold Disjoint at h
  unfold Has at hx ⊢
  omega

/-- The bytes of the inner region are bytes of the outer one. -/
def Inside (inner outer : Region) : Prop :=
  outer.start ≤ inner.start ∧ inner.stop ≤ outer.stop

end Region

/-- A memory: each byte that belongs to an object is known with the object and its offset. -/
abbrev Memory (β : Type u) := Nat → Option (β × Nat)

namespace Memory

variable {β : Type u}

/-- Store an object that fills the region. -/
def store (m : Memory β) (r : Region) (object : β) : Memory β :=
  fun x => if r.Has x then some (object, x - r.start) else m x

/-- All bytes of the region are those of the object, in order. -/
def Holds (m : Memory β) (r : Region) (object : β) : Prop :=
  ∀ x, r.Has x → m x = some (object, x - r.start)

/-- Read the object that fills the region. -/
def load [DecidableEq β] (m : Memory β) (r : Region) : Option β :=
  match m r.start with
  | none => none
  | some (object, _) =>
      if (List.range r.size).all fun i => m (r.start + i) = some (object, i) then
        some object
      else
        none

/-- The memories differ in the region at most. -/
def SameOutside (r : Region) (m m' : Memory β) : Prop :=
  ∀ x, ¬ r.Has x → m' x = m x

theorem holds_store (m : Memory β) (r : Region) (object : β) : (m.store r object).Holds r object :=
  fun _ hx => if_pos hx

theorem sameOutside_store (m : Memory β) (r : Region) (object : β) :
    SameOutside r m (m.store r object) :=
  fun _ hx => if_neg hx

theorem Holds.congr {m m' : Memory β} {r q : Region} {object : β} (h : m.Holds q object)
    (hsame : SameOutside r m m') (hdisjoint : r.Disjoint q) : m'.Holds q object := by
  intro x hx
  rw [hsame x (hdisjoint.not_has hx)]
  exact h x hx

theorem Holds.load_eq [DecidableEq β] {m : Memory β} {r : Region} {object : β}
    (h : m.Holds r object) (hsize : 0 < r.size) : m.load r = some object := by
  have hbyte : ∀ i < r.size, m (r.start + i) = some (object, i) := by
    intro i hi
    have hhas : r.Has (r.start + i) := ⟨Nat.le_add_right _ _, by rw [Region.stop]; omega⟩
    rw [h _ hhas, Nat.add_sub_cancel_left]
  have hfirst : m r.start = some (object, 0) := hbyte 0 hsize
  unfold load
  simp only [hfirst]
  rw [if_pos]
  simpa using hbyte

end Memory

end Bytes
