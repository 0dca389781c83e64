import Mathlib.Data.Nat.Bitwise

/-!
# Contexts of the simple executor

{lit}`SimpleExecutor::checkout` turns the number of the current worker into a context by
setting one bit, so that no context is {lit}`NULLCTX`; {lit}`checkin` removes the bit and
schedules the function on that worker.  The bit belongs to the range of worker numbers:
{lit}`_threadNum` is an {lit}`int32_t`.

Main results:

- Theorem {lit}`checkinId_checkout_iff`: a worker gets its own functions back exactly if
  its number is below the bit.
- Theorem {lit}`checkin_of_not_prompt`: without {lit}`prompt` every function goes through
  a queue.
-/

namespace AsyncSimple

namespace SimpleExecutor

/-- The workers of a pool are counted by an {lit}`int32_t`. -/
structure Pool where
  threadNum : Nat
  fits : threadNum < 2 ^ 31

def kContextMask : BitVec 64 :=
  0x40000000#64

variable {n : Nat}

/-- {lit}`getCurrentId`; {lit}`none` is a thread outside the pool. -/
def getCurrentId : Option (Fin n) → BitVec 32
  | none => BitVec.allOnes 32
  | some v => BitVec.ofNat 32 v.val

/-- {lit}`checkout`. -/
def checkout (current : Option (Fin n)) : BitVec 64 :=
  (getCurrentId current).signExtend 64 ||| kContextMask

/-- A context as {lit}`FutureState` keeps it; {lit}`none` is {lit}`NULLCTX`. -/
def toContext (ctx : BitVec 64) : Option Nat :=
  if ctx = 0#64 then none else some ctx.toNat

/-- The number that {lit}`checkin` passes to {lit}`scheduleById`. -/
def checkinId (ctx : BitVec 64) : BitVec 32 :=
  (ctx &&& ~~~kContextMask).setWidth 32

/-- What happens to a function that the executor accepts. -/
inductive Placement where
  | inPlace
  | queue (id : Nat)
deriving DecidableEq, Repr

/-- {lit}`checkin`, in a pool that does not stop. -/
def checkin (current : Option (Fin n)) (ctx : BitVec 64) (prompt : Bool) : Placement :=
  if (getCurrentId current).signExtend 64 = ctx &&& ~~~kContextMask ∧ prompt = true then
    .inPlace
  else
    .queue (checkinId ctx).toNat

@[simp]
theorem checkin_of_not_prompt (current : Option (Fin n)) (ctx : BitVec 64) :
    checkin current ctx false = .queue (checkinId ctx).toNat :=
  if_neg (by simp)

/-! ## Which worker gets the function -/

/-- The queue that receives the functions of worker {lit}`v`. -/
def target (v : Fin n) : Nat :=
  (checkinId (checkout (some v))).toNat

/-- The number of a worker is not negative. -/
theorem signExtend_getCurrentId (v : Fin n) (hn : n < 2 ^ 31) :
    (getCurrentId (some v)).signExtend 64 = BitVec.ofNat 64 v.val := by
  have hv : v.val < 2 ^ 31 := v.isLt.trans hn
  apply BitVec.eq_of_toInt_eq
  rw [getCurrentId, BitVec.toInt_signExtend_of_le (by omega), BitVec.toInt_ofNat',
    BitVec.toInt_ofNat']
  rw [Int.bmod_eq_of_le (by omega) (by omega), Int.bmod_eq_of_le (by omega) (by omega)]

theorem checkout_and_not (v : Fin n) (hn : n < 2 ^ 31) :
    checkout (some v) &&& ~~~kContextMask = BitVec.ofNat 64 v.val &&& ~~~kContextMask := by
  ext i hi
  simp only [checkout, signExtend_getCurrentId v hn, BitVec.getElem_and, BitVec.getElem_or,
    BitVec.getElem_not]
  cases (BitVec.ofNat 64 v.val)[i] <;> cases kContextMask[i] <;> rfl

/-- The context of a worker is its number without the bit. -/
theorem target_eq (v : Fin n) (hn : n < 2 ^ 31) :
    target v = (BitVec.ofNat 64 v.val &&& ~~~kContextMask).toNat := by
  have hv : v.val < 2 ^ 31 := v.isLt.trans hn
  have hle : (BitVec.ofNat 64 v.val &&& ~~~kContextMask).toNat ≤ v.val := by
    rw [BitVec.toNat_and, BitVec.toNat_ofNat, Nat.mod_eq_of_lt (by omega)]
    exact Nat.and_le_left
  rw [target, checkinId, checkout_and_not v hn, BitVec.toNat_setWidth,
    Nat.mod_eq_of_lt (by omega)]

/-- The queue exists. -/
theorem target_lt (v : Fin n) (hn : n < 2 ^ 31) : target v < n := by
  have hv : v.val < 2 ^ 31 := v.isLt.trans hn
  rw [target_eq v hn, BitVec.toNat_and, BitVec.toNat_ofNat, Nat.mod_eq_of_lt (by omega)]
  exact Nat.lt_of_le_of_lt Nat.and_le_left v.isLt

theorem kContextMask_getElem (i : Nat) (hi : i < 64) : kContextMask[i] = decide (i = 30) := by
  have htwoPow : kContextMask = BitVec.twoPow 64 30 := rfl
  rw [htwoPow, BitVec.getElem_twoPow]

/-- Numbers below the bit do not have it. -/
theorem ofNat_and_not {k : Nat} (hk : k < 2 ^ 30) :
    BitVec.ofNat 64 k &&& ~~~kContextMask = BitVec.ofNat 64 k := by
  ext i hi
  rw [BitVec.getElem_and, BitVec.getElem_not, kContextMask_getElem]
  by_cases hthirty : i = 30
  · subst hthirty
    have hbit : (BitVec.ofNat 64 k)[30] = false := by
      rw [← BitVec.getLsbD_eq_getElem, BitVec.getLsbD_ofNat, Nat.testBit_lt_two_pow hk]
      rfl
    simp [hbit]
  · simp [hthirty]

/-- A worker gets its own functions back exactly if its number is below the bit. -/
theorem checkinId_checkout_iff (v : Fin n) (hn : n < 2 ^ 31) :
    target v = v.val ↔ v.val < 2 ^ 30 := by
  have hv : v.val < 2 ^ 31 := v.isLt.trans hn
  rw [target_eq v hn]
  constructor
  · intro htarget
    by_contra hlarge
    have hbit : v.val.testBit 30 = true := by
      rw [Nat.testBit_eq_decide_div_mod_eq, decide_eq_true_iff]
      omega
    have hcleared : (BitVec.ofNat 64 v.val &&& ~~~kContextMask).toNat.testBit 30 = false := by
      rw [BitVec.testBit_toNat, BitVec.getLsbD_eq_getElem (by omega)]
      simp [kContextMask_getElem]
    rw [htarget, hbit] at hcleared
    cases hcleared
  · intro hsmall
    rw [ofNat_and_not hsmall, BitVec.toNat_ofNat, Nat.mod_eq_of_lt (by omega)]

/-- A context is never {lit}`NULLCTX`. -/
theorem toContext_checkout (current : Option (Fin n)) :
    toContext (checkout current) = some (checkout current).toNat := by
  refine if_neg fun hzero => ?_
  have hbit : (checkout current)[30] = true := by
    simp [checkout, kContextMask_getElem]
  rw [hzero] at hbit
  simp at hbit

end SimpleExecutor

end AsyncSimple
