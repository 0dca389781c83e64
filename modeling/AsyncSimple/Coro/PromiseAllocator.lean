import AsyncSimple.Library.Memory

/-!
# The frames of coroutines with an allocator

{lit}`operator new` of {lit}`PromiseAllocator` asks an allocator for a number of
{lit}`Aligned_block`s.  The frame comes first; behind it the type-erased variants store the
function that deallocates, and a stateful allocator is stored at the next address of its
alignment.  {lit}`operator delete` gets the pointer and the size of the frame only and
computes the rest again.

Sizes and addresses are machine words.  The coroutine may write anything into its frame
between the two calls.

Main results:

- Theorem {lit}`alAddress_room`: where a stateful allocator is stored, for alignments below and
  above the size of a block.
- Theorem {lit}`operatorDelete_operatorNew`: in each variant the objects are disjoint, aligned
  and inside the block, and {lit}`operator delete` reads them and gives the block back with the
  count it was allocated with.
-/

namespace AsyncSimple

namespace PromiseAllocator

open Bytes

/-- {lit}`size_t` and {lit}`uintptr_t`. -/
abbrev SizeT := BitVec 64

/-- {lit}`sizeof(Aligned_block)` and {lit}`sizeof(DeallocFn)`. -/
structure Platform where
  alignedBlock : SizeT
  deallocFn : SizeT
  alignedBlock_twoPow : ∃ k, alignedBlock.toNat = 2 ^ k
  deallocFn_pos : 0 < deallocFn.toNat

/-- The type of an allocator, with {lit}`sizeof` and {lit}`alignof`.  {lit}`stateless` says that
it is {lit}`default_initializable` and {lit}`is_always_equal`. -/
structure AllocType where
  size : SizeT
  align : SizeT
  stateless : Bool
  align_twoPow : ∃ k, align.toNat = 2 ^ k
  align_dvd_size : align.toNat ∣ size.toNat
  size_pos : 0 < size.toNat
deriving DecidableEq

/-- The closures that are stored as {lit}`DeallocFn`: the one of the default
{lit}`operator new`, and the two for an allocator type. -/
inductive DeallocFn where
  | deleteArray
  | stateless (T : AllocType)
  | stateful (T : AllocType)
deriving DecidableEq

/-- What is stored behind a frame. -/
inductive Object (α : Type) where
  | dealloc (fn : DeallocFn)
  | alloc (al : α)
deriving DecidableEq

/-- A block with a frame, as {lit}`operator new` leaves it: the count it passed to
{lit}`allocate` and the addresses at which it stored the function and the allocator. -/
structure Block (α : Type) where
  ptr : SizeT
  count : SizeT
  deallocAt : Option SizeT
  allocAt : Option SizeT
  memory : Memory (Object α)

/-- The outcomes of {lit}`operator new`. -/
inductive NewResult (α : Type) where
  | frame (b : Block α)
  | nullptr
  | throws

/-- The call of {lit}`deallocate`: the allocator (none for one that is made on the spot), its
arguments, and the addresses from which the function and the allocator were read. -/
structure Deallocation (α : Type) where
  al : Option α
  ptr : SizeT
  count : SizeT
  deallocFrom : Option SizeT
  allocFrom : Option SizeT
deriving DecidableEq

/-- The three classes. -/
inductive Variant where
  /-- {lit}`PromiseAllocator<Allocator>` -/
  | typed
  /-- {lit}`PromiseAllocator<void, false>` -/
  | erased
  /-- {lit}`PromiseAllocator<void, true>` -/
  | erasedNoexcept
deriving DecidableEq, Repr

def region (address size : SizeT) : Region :=
  ⟨address.toNat, size.toNat⟩

section

variable {α : Type} (P : Platform) (T : AllocType)

/-- {lit}`Align`, by {lit}`std::max`. -/
def slack : SizeT :=
  if T.align < P.alignedBlock then P.alignedBlock else T.align

/-- {lit}`al_address`. -/
def alAddress (ptr size : SizeT) : SizeT :=
  (ptr + size + T.align - 1) &&& ~~~(T.align - 1)

/-! ## {lit}`operator new` -/

/-- {lit}`PromiseAllocator<Allocator>::Allocate`; {lit}`allocate` answers the request for a
number of blocks, or throws. -/
def allocateTyped (al : α) (size : SizeT) (allocate : SizeT → Option SizeT)
    (m : Memory (Object α)) : NewResult α :=
  if T.stateless then
    let count := (size + P.alignedBlock - 1) / P.alignedBlock
    match allocate count with
    | none => .throws
    | some ptr => .frame ⟨ptr, count, none, none, m⟩
  else
    let count := (size + T.size + slack P T - 1) / P.alignedBlock
    match allocate count with
    | none => .throws
    | some ptr =>
        let address := alAddress T ptr size
        .frame ⟨ptr, count, none, some address, m.store (region address T.size) (.alloc al)⟩

/-- {lit}`Allocate` of the type-erased variants, which differ in what they do when the allocator
throws. -/
def allocateErased (failed : NewResult α) (al : α) (size : SizeT)
    (allocate : SizeT → Option SizeT) (m : Memory (Object α)) : NewResult α :=
  if T.stateless then
    let count := (size + P.deallocFn + P.alignedBlock - 1) / P.alignedBlock
    match allocate count with
    | none => failed
    | some ptr =>
        .frame ⟨ptr, count, some (ptr + size), none,
          m.store (region (ptr + size) P.deallocFn) (.dealloc (.stateless T))⟩
  else
    let count := (size + P.deallocFn + T.size + slack P T - 1) / P.alignedBlock
    match allocate count with
    | none => failed
    | some ptr =>
        let address := alAddress T ptr (size + P.deallocFn)
        .frame ⟨ptr, count, some (ptr + size), some address,
          (m.store (region (ptr + size) P.deallocFn) (.dealloc (.stateful T))).store
            (region address T.size) (.alloc al)⟩

def operatorNew (variant : Variant) (al : α) (size : SizeT) (allocate : SizeT → Option SizeT)
    (m : Memory (Object α)) : NewResult α :=
  match variant with
  | .typed => allocateTyped P T al size allocate m
  | .erased => allocateErased P T .throws al size allocate m
  | .erasedNoexcept => allocateErased P T .nullptr al size allocate m

/-- The type-erased {lit}`operator new` without an allocator; the request is one in bytes. -/
def operatorNewDefault (failed : NewResult α) (size : SizeT) (newArray : SizeT → Option SizeT)
    (m : Memory (Object α)) : NewResult α :=
  match newArray (size + P.deallocFn) with
  | none => failed
  | some ptr =>
      .frame ⟨ptr, size + P.deallocFn, some (ptr + size), none,
        m.store (region (ptr + size) P.deallocFn) (.dealloc .deleteArray)⟩

/-! ## {lit}`operator delete` -/

variable [DecidableEq α]

/-- {lit}`PromiseAllocator<Allocator>::operator delete`; none means that there is no allocator at
the address. -/
def deleteTyped (ptr size : SizeT) (m : Memory (Object α)) : Option (Deallocation α) :=
  if T.stateless then
    let count := (size + P.alignedBlock - 1) / P.alignedBlock
    some ⟨none, ptr, count, none, none⟩
  else
    let address := alAddress T ptr size
    match m.load (region address T.size) with
    | some (.alloc al) =>
        let count := (size + T.size + slack P T - 1) / P.alignedBlock
        some ⟨some al, ptr, count, none, some address⟩
    | _ => none

/-- The closures that {lit}`operator new` stores. -/
def DeallocFn.call (fn : DeallocFn) (ptr size : SizeT) (m : Memory (Object α)) :
    Option (Deallocation α) :=
  match fn with
  | .deleteArray => some ⟨none, ptr, size + P.deallocFn, none, none⟩
  | .stateless _ =>
      let count := (size + P.deallocFn + P.alignedBlock - 1) / P.alignedBlock
      some ⟨none, ptr, count, none, none⟩
  | .stateful T =>
      let size := size + P.deallocFn
      let address := alAddress T ptr size
      match m.load (region address T.size) with
      | some (.alloc al) =>
          let count := (size + T.size + slack P T - 1) / P.alignedBlock
          some ⟨some al, ptr, count, none, some address⟩
      | _ => none

/-- {lit}`operator delete` of the type-erased variants. -/
def deleteErased (ptr size : SizeT) (m : Memory (Object α)) : Option (Deallocation α) :=
  match m.load (region (ptr + size) P.deallocFn) with
  | some (.dealloc fn) =>
      (fn.call P ptr size m).map fun d => { d with deallocFrom := some (ptr + size) }
  | _ => none

def operatorDelete (variant : Variant) (ptr size : SizeT) (m : Memory (Object α)) :
    Option (Deallocation α) :=
  match variant with
  | .typed => deleteTyped P T ptr size m
  | .erased | .erasedNoexcept => deleteErased P ptr size m

end

/-! ## Arithmetic without overflow -/

/-- A sum that is rounded up; the sum itself may be 2^64. -/
theorem toNat_add_sub_one {x y : SizeT} (hy : 0 < y.toNat) (h : x.toNat + y.toNat ≤ 2 ^ 64) :
    (x + y - 1).toNat = x.toNat + y.toNat - 1 := by
  have hx := x.isLt
  have hone : (1 : SizeT).toNat = 1 := rfl
  rw [BitVec.toNat_sub, BitVec.toNat_add, hone]
  omega

theorem toNat_add_of_lt {x y : SizeT} (h : x.toNat + y.toNat < 2 ^ 64) :
    (x + y).toNat = x.toNat + y.toNat := by
  rw [BitVec.toNat_add, Nat.mod_eq_of_lt h]

theorem Platform.alignedBlock_pos (P : Platform) : 0 < P.alignedBlock.toNat := by
  rcases P.alignedBlock_twoPow with ⟨k, hk⟩
  rw [hk]
  exact Nat.two_pow_pos k

theorem AllocType.align_pos (T : AllocType) : 0 < T.align.toNat := by
  rcases T.align_twoPow with ⟨k, hk⟩
  rw [hk]
  exact Nat.two_pow_pos k

theorem toNat_slack (P : Platform) (T : AllocType) :
    (slack P T).toNat = max T.align.toNat P.alignedBlock.toNat := by
  simp only [slack, BitVec.lt_def]
  split
  · next hlt => exact (Nat.max_eq_right (Nat.le_of_lt hlt)).symm
  · next hle => exact (Nat.max_eq_left (Nat.le_of_not_lt hle)).symm

/-- The blocks that are asked for have room for {lit}`s` bytes and, behind them, for an
allocator of size {lit}`z` at an address of its alignment {lit}`a`. -/
theorem blocks_room {B a z p s : Nat} (hB : ∃ k, B = 2 ^ k) (ha : ∃ k, a = 2 ^ k) (hp : B ∣ p)
    (hz : a ∣ z) (hz0 : 0 < z) :
    s + a ≤ (s + z + max a B - 1) / B * B ∧
      alignUp (p + s) a + z ≤ p + (s + z + max a B - 1) / B * B := by
  have hB0 : 0 < B := by
    rcases hB with ⟨k, rfl⟩
    exact Nat.two_pow_pos k
  have ha0 : 0 < a := by
    rcases ha with ⟨k, rfl⟩
    exact Nat.two_pow_pos k
  have haz : a ≤ z := Nat.le_of_dvd hz0 hz
  rcases dvd_or_dvd_of_twoPow ha hB with ⟨hdvd, hle⟩ | ⟨hdvd, hlt⟩
  · -- the block is rounded up to a coarser alignment than the allocator's
    rw [Nat.max_eq_right hle]
    have hcount : (s + z + B - 1) / B * B = alignUp (s + z) B := rfl
    rw [hcount]
    constructor
    · calc s + a ≤ s + z := by omega
        _ ≤ alignUp (s + z) B := le_alignUp hB0
    · calc alignUp (p + s) a + z = alignUp (s + z) a + p := by
            rw [Nat.add_comm p s, alignUp_add_of_dvd ha0 (hdvd.trans hp), Nat.add_right_comm,
              ← alignUp_add_of_dvd ha0 hz]
        _ ≤ alignUp (s + z) B + p := by
            exact Nat.add_le_add_right (alignUp_le_alignUp ha0 hB0 hdvd) p
        _ = p + alignUp (s + z) B := Nat.add_comm _ _
  · -- the end of the allocator is the end of a block
    rw [Nat.max_eq_left hlt.le]
    have hfloor : ∀ {d}, B ∣ d → d ≤ s + z + a - 1 → d ≤ (s + z + a - 1) / B * B := by
      rintro _ ⟨n, rfl⟩ hd
      rw [Nat.mul_comm B n] at hd ⊢
      exact Nat.mul_le_mul_right B ((Nat.le_div_iff_mul_le hB0).mpr hd)
    constructor
    · have hmod := Nat.div_add_mod (s + z + a - 1) B
      have hrest := Nat.mod_lt (s + z + a - 1) hB0
      rw [Nat.mul_comm] at hmod
      omega
    · have hend : B ∣ alignUp (p + s) a + z :=
        Nat.dvd_add (hdvd.trans (dvd_alignUp _ _)) (hdvd.trans hz)
      have hbegin : p ≤ alignUp (p + s) a := le_trans (Nat.le_add_right p s) (le_alignUp ha0)
      have hbound := alignUp_le_add (p + s) a
      have hroom := hfloor (Nat.dvd_sub hend hp) (by omega)
      omega

/-- Where a stateful allocator is stored: behind the {lit}`size` bytes that come before it, at
its alignment, and before the end of the blocks. -/
theorem alAddress_room (P : Platform) (T : AllocType) {ptr size count : SizeT}
    (hptr : P.alignedBlock.toNat ∣ ptr.toNat)
    (hcount : count.toNat =
      (size.toNat + T.size.toNat + (slack P T).toNat - 1) / P.alignedBlock.toNat)
    (hblock : ptr.toNat + count.toNat * P.alignedBlock.toNat ≤ 2 ^ 64) :
    T.align.toNat ∣ (alAddress T ptr size).toNat ∧
      ptr.toNat + size.toNat ≤ (alAddress T ptr size).toNat ∧
      (alAddress T ptr size).toNat + T.size.toNat ≤
        ptr.toNat + count.toNat * P.alignedBlock.toNat := by
  rcases blocks_room (s := size.toNat) P.alignedBlock_twoPow T.align_twoPow hptr T.align_dvd_size
    T.size_pos with ⟨hsum, hroom⟩
  rw [← toNat_slack, ← hcount] at hsum hroom
  have halign := T.align_pos
  have hbegin : (ptr + size).toNat = ptr.toNat + size.toNat := toNat_add_of_lt (by omega)
  have haddress : (alAddress T ptr size).toNat =
      alignUp (ptr.toNat + size.toNat) T.align.toNat := by
    rw [alAddress, toNat_and_not_sub_one _ _ T.align_twoPow,
      toNat_add_sub_one halign (by rw [hbegin]; omega), hbegin, alignUp]
  rw [haddress]
  exact ⟨dvd_alignUp _ _, le_alignUp halign, hroom⟩

theorem slack_pos (P : Platform) (T : AllocType) : 0 < (slack P T).toNat := by
  rw [toNat_slack]
  exact lt_of_lt_of_le T.align_pos (Nat.le_max_left _ _)

/-- The count with a stored allocator. -/
theorem toNat_count (P : Platform) (T : AllocType) (size : SizeT)
    (hsum : size.toNat + (T.size.toNat + (slack P T).toNat) ≤ 2 ^ 64) :
    ((size + T.size + slack P T - 1) / P.alignedBlock).toNat =
      (size.toNat + T.size.toNat + (slack P T).toNat - 1) / P.alignedBlock.toNat := by
  have hslack := slack_pos P T
  have hfirst : (size + T.size).toNat = size.toNat + T.size.toNat := toNat_add_of_lt (by omega)
  rw [BitVec.toNat_udiv, toNat_add_sub_one hslack (by rw [hfirst]; omega), hfirst]

/-- The count without a stored allocator: enough blocks for {lit}`size` bytes. -/
theorem count_room (P : Platform) (size : SizeT)
    (hsize : size.toNat + P.alignedBlock.toNat ≤ 2 ^ 64) :
    size.toNat ≤
      ((size + P.alignedBlock - 1) / P.alignedBlock).toNat * P.alignedBlock.toNat := by
  rw [BitVec.toNat_udiv, toNat_add_sub_one P.alignedBlock_pos hsize]
  exact le_alignUp P.alignedBlock_pos

/-! ## The layout -/

/-- The function is stored behind the frame. -/
def Variant.storesDealloc : Variant → Bool
  | .typed => false
  | .erased | .erasedNoexcept => true

/-- The bytes before the allocator. -/
def Variant.before (variant : Variant) (P : Platform) (size : SizeT) : Nat :=
  size.toNat + if variant.storesDealloc then P.deallocFn.toNat else 0

/-- The sum from which the number of blocks is computed fits in a {lit}`size_t`, and the blocks
fit in the address space. -/
structure NoOverflow (P : Platform) (T : AllocType) (variant : Variant) (size : SizeT)
    {α : Type} (b : Block α) : Prop where
  sum : variant.before P size +
    (if T.stateless then P.alignedBlock.toNat else T.size.toNat + (slack P T).toNat) ≤ 2 ^ 64
  block : b.ptr.toNat + b.count.toNat * P.alignedBlock.toNat ≤ 2 ^ 64

/-- The frame and the objects that are stored behind it. -/
def Block.regions {α : Type} (P : Platform) (T : AllocType) (size : SizeT) (b : Block α) :
    List Region :=
  region b.ptr size :: ((b.deallocAt.map fun x => region x P.deallocFn).toList ++
    (b.allocAt.map fun x => region x T.size).toList)

/-- The objects have their own bytes of the block, and the allocator is aligned. -/
structure WellPlaced (P : Platform) (T : AllocType) (size : SizeT) {α : Type} (b : Block α) :
    Prop where
  disjoint : (b.regions P T size).Pairwise Region.Disjoint
  inside : ∀ r ∈ b.regions P T size,
    r.Inside ⟨b.ptr.toNat, b.count.toNat * P.alignedBlock.toNat⟩
  aligned : ∀ x ∈ b.allocAt, T.align.toNat ∣ x.toNat

/-- The block has what {lit}`operator delete` will need. -/
structure Stores (T : AllocType) (variant : Variant) {α : Type} (b : Block α) : Prop where
  dealloc : b.deallocAt.isSome = variant.storesDealloc
  alloc : b.allocAt.isSome = !T.stateless

/-- The call of {lit}`deallocate` that undoes {lit}`operator new`. -/
def Block.deallocation {α : Type} (T : AllocType) (al : α) (b : Block α) : Deallocation α where
  al := if T.stateless then none else some al
  ptr := b.ptr
  count := b.count
  deallocFrom := b.deallocAt
  allocFrom := b.allocAt

/-- The frame, the function directly behind it, and the allocator somewhere behind both. -/
theorem WellPlaced.of_order {P : Platform} {T : AllocType} {size : SizeT} {α : Type} {b : Block α}
    (hframe : size.toNat ≤ b.count.toNat * P.alignedBlock.toNat)
    (hdealloc : ∀ x ∈ b.deallocAt, x.toNat = b.ptr.toNat + size.toNat ∧
      size.toNat + P.deallocFn.toNat ≤ b.count.toNat * P.alignedBlock.toNat)
    (halloc : ∀ y ∈ b.allocAt, T.align.toNat ∣ y.toNat ∧ b.ptr.toNat + size.toNat ≤ y.toNat ∧
      (∀ x ∈ b.deallocAt, x.toNat + P.deallocFn.toNat ≤ y.toNat) ∧
      y.toNat + T.size.toNat ≤ b.ptr.toNat + b.count.toNat * P.alignedBlock.toNat) :
    WellPlaced P T size b := by
  rcases b with ⟨ptr, count, deallocAt, allocAt, memory⟩
  have hpairs : ((Block.mk ptr count deallocAt allocAt memory).regions P T size).Pairwise
      Region.Disjoint ∧ ∀ r ∈ (Block.mk ptr count deallocAt allocAt memory).regions P T size,
        r.Inside ⟨ptr.toNat, count.toNat * P.alignedBlock.toNat⟩ := by
    cases deallocAt <;> cases allocAt <;>
      simp [Block.regions, Region.Disjoint, Region.Inside, Region.stop, region] at * <;> omega
  exact ⟨hpairs.1, hpairs.2, fun y hy => (halloc y hy).1⟩

section

variable {α : Type} [DecidableEq α] {P : Platform} {T : AllocType} {variant : Variant} {al : α}
  {size : SizeT} {allocate : SizeT → Option SizeT} {m : Memory (Object α)} {b : Block α}

/-- {lit}`operator delete` undoes {lit}`operator new`, whatever the coroutine has written into
its frame. -/
def Mirrors (P : Platform) (T : AllocType) (variant : Variant) (al : α) (size : SizeT)
    (b : Block α) : Prop :=
  ∀ m', Memory.SameOutside (region b.ptr size) b.memory m' →
    operatorDelete P T variant b.ptr size m' = some (b.deallocation T al)

/-- An object of a well-placed block survives the writes into the frame. -/
theorem load_of_holds {m m' : Memory (Object α)} {ptr x n : SizeT} {object : Object α}
    (hn : 0 < n.toNat) (hx : ptr.toNat + size.toNat ≤ x.toNat) (h : m.Holds (region x n) object)
    (hsame : Memory.SameOutside (region ptr size) m m') :
    m'.load (region x n) = some object :=
  (h.congr hsame (.inl hx)).load_eq hn

theorem allocateTyped_layout (hnew : allocateTyped P T al size allocate m = .frame b)
    (hptr : P.alignedBlock.toNat ∣ b.ptr.toNat) (hov : NoOverflow P T .typed size b) :
    WellPlaced P T size b ∧ Stores T .typed b ∧ Mirrors P T .typed al size b := by
  have hsum := hov.sum
  have hblock := hov.block
  simp only [Variant.before, Variant.storesDealloc, Bool.false_eq_true, if_false,
    Nat.add_zero] at hsum
  unfold allocateTyped at hnew
  split at hnew
  case isTrue hstateless =>
    rw [if_pos hstateless] at hsum
    simp only at hnew
    split at hnew
    case h_1 => cases hnew
    case h_2 ptr hptr' =>
      cases hnew
      dsimp only at hptr hblock
      refine ⟨.of_order (count_room P size hsum) (by simp) (by simp),
        ⟨rfl, by simp [hstateless]⟩, ?_⟩
      intro m' _
      simp [operatorDelete, deleteTyped, Block.deallocation, hstateless]
  case isFalse hstateful =>
    rw [if_neg hstateful] at hsum
    simp only at hnew
    split at hnew
    case h_1 => cases hnew
    case h_2 ptr hptr' =>
      cases hnew
      dsimp only at hptr hblock
      rcases alAddress_room P T hptr (toNat_count P T size hsum) hblock with
        ⟨haligned, hbehind, hend⟩
      refine ⟨.of_order (by dsimp only; omega) (by simp) ?_, ⟨rfl, by simp [hstateful]⟩, ?_⟩
      · intro y hy
        cases hy
        exact ⟨haligned, hbehind, fun x hx => absurd hx (Option.not_mem_none x), hend⟩
      · intro m' hsame
        have hload := load_of_holds T.size_pos hbehind (Memory.holds_store m _ (.alloc al)) hsame
        simp [operatorDelete, deleteTyped, Block.deallocation, hstateful, hload]

theorem allocateErased_layout {failed : NewResult α} (hfailed : ∀ b, failed ≠ .frame b)
    (hvariant : variant.storesDealloc = true)
    (hnew : allocateErased P T failed al size allocate m = .frame b)
    (hptr : P.alignedBlock.toNat ∣ b.ptr.toNat) (hov : NoOverflow P T variant size b) :
    WellPlaced P T size b ∧ Stores T variant b ∧ Mirrors P T variant al size b := by
  have hdelete : ∀ (ptr : SizeT) (m' : Memory (Object α)),
      operatorDelete P T variant ptr size m' = deleteErased P ptr size m' := by
    intro ptr m'
    cases variant with
    | typed => cases hvariant
    | erased | erasedNoexcept => rfl
  have hsum := hov.sum
  have hblock := hov.block
  have hfn := P.deallocFn_pos
  have hB := P.alignedBlock_pos
  simp only [Variant.before, hvariant, if_true] at hsum
  unfold allocateErased at hnew
  split at hnew
  case isTrue hstateless =>
    rw [if_pos hstateless] at hsum
    simp only at hnew
    split at hnew
    case h_1 => exact absurd hnew (hfailed b)
    case h_2 ptr hptr' =>
      cases hnew
      dsimp only at hptr hblock
      have hbytes : (size + P.deallocFn).toNat = size.toNat + P.deallocFn.toNat :=
        toNat_add_of_lt (by omega)
      have hroom := count_room P (size + P.deallocFn) (by rw [hbytes]; omega)
      rw [hbytes] at hroom
      have haddress : (ptr + size).toNat = ptr.toNat + size.toNat :=
        toNat_add_of_lt (by omega)
      refine ⟨.of_order (by dsimp only; omega) ?_ (by simp),
        ⟨hvariant.symm, by simp [hstateless]⟩, ?_⟩
      · intro x hx
        cases hx
        exact ⟨haddress, hroom⟩
      · intro m' hsame
        have hload := load_of_holds hfn haddress.ge
          (Memory.holds_store m _ (.dealloc (.stateless T))) hsame
        rw [hdelete]
        simp [deleteErased, DeallocFn.call, Block.deallocation, hstateless, hload]
  case isFalse hstateful =>
    rw [if_neg hstateful] at hsum
    simp only at hnew
    split at hnew
    case h_1 => exact absurd hnew (hfailed b)
    case h_2 ptr hptr' =>
      cases hnew
      dsimp only at hptr hblock
      have hslack := slack_pos P T
      have hbytes : (size + P.deallocFn).toNat = size.toNat + P.deallocFn.toNat :=
        toNat_add_of_lt (by omega)
      have hcount := toNat_count P T (size + P.deallocFn) (by rw [hbytes]; omega)
      rcases alAddress_room P T hptr hcount hblock with ⟨haligned, hbehind, hend⟩
      rw [hbytes] at hbehind
      have haddress : (ptr + size).toNat = ptr.toNat + size.toNat :=
        toNat_add_of_lt (by omega)
      have hapart : (region (alAddress T ptr (size + P.deallocFn)) T.size).Disjoint
          (region (ptr + size) P.deallocFn) := by
        refine .inr ?_
        simp only [Region.stop, region, haddress]
        omega
      refine ⟨.of_order (by dsimp only; omega) ?_ ?_,
        ⟨hvariant.symm, by simp [hstateful]⟩, ?_⟩
      · intro x hx
        cases hx
        exact ⟨haddress, by dsimp only; omega⟩
      · intro y hy
        cases hy
        refine ⟨haligned, by dsimp only; omega, ?_, hend⟩
        intro x hx
        cases hx
        omega
      · intro m' hsame
        have hfunction := load_of_holds hfn haddress.ge
          ((Memory.holds_store m _ (.dealloc (.stateful T))).congr
            (Memory.sameOutside_store _ _ (.alloc al)) hapart) hsame
        have hallocator := load_of_holds T.size_pos
          (x := alAddress T ptr (size + P.deallocFn)) (by dsimp only; omega)
          (Memory.holds_store _ _ (.alloc al)) hsame
        rw [hdelete]
        simp [deleteErased, DeallocFn.call, Block.deallocation, hstateful, hfunction, hallocator]

/-- In each of the classes, for stateless and stateful allocators: the frame, the function and
the allocator have their own bytes of the block, the allocator is aligned, and whatever the
coroutine has written into its frame, {lit}`operator delete` reads the function and the
allocator from the addresses at which they were stored and deallocates the block with its
count. -/
theorem operatorDelete_operatorNew
    (hnew : operatorNew P T variant al size allocate m = .frame b)
    (hptr : P.alignedBlock.toNat ∣ b.ptr.toNat) (hov : NoOverflow P T variant size b) :
    WellPlaced P T size b ∧ Stores T variant b ∧ Mirrors P T variant al size b := by
  cases variant with
  | typed => exact allocateTyped_layout hnew hptr hov
  | erased => exact allocateErased_layout (by simp) rfl hnew hptr hov
  | erasedNoexcept => exact allocateErased_layout (by simp) rfl hnew hptr hov

omit [DecidableEq α] in
/-- A failing allocator: two of the classes pass the exception on, the third returns null. -/
theorem operatorNew_of_failed (hfailed : ∀ count, allocate count = none) :
    operatorNew P T variant al size allocate m =
      if variant = .erasedNoexcept then .nullptr else .throws := by
  cases variant <;> simp [operatorNew, allocateTyped, allocateErased, hfailed]

/-- The default {lit}`operator new` of the type-erased variants. -/
theorem deleteErased_operatorNewDefault {failed : NewResult α} (hfailed : ∀ b, failed ≠ .frame b)
    (hnew : operatorNewDefault P failed size allocate m = .frame b)
    (hblock : b.ptr.toNat + size.toNat + P.deallocFn.toNat ≤ 2 ^ 64) {m' : Memory (Object α)}
    (hsame : Memory.SameOutside (region b.ptr size) b.memory m') :
    deleteErased P b.ptr size m' = some ⟨none, b.ptr, b.count, b.deallocAt, none⟩ := by
  unfold operatorNewDefault at hnew
  split at hnew
  case h_1 => exact absurd hnew (hfailed b)
  case h_2 ptr hptr =>
    cases hnew
    dsimp only at hblock hsame
    have hfn := P.deallocFn_pos
    have haddress : (ptr + size).toNat = ptr.toNat + size.toNat := toNat_add_of_lt (by omega)
    have hload := load_of_holds hfn haddress.ge
      (Memory.holds_store m _ (.dealloc .deleteArray)) hsame
    simp [deleteErased, DeallocFn.call, hload]

end

/-- Blocks of 16 bytes and function pointers of 8. -/
def sixteen : Platform where
  alignedBlock := 16
  deallocFn := 8
  alignedBlock_twoPow := ⟨4, rfl⟩
  deallocFn_pos := by decide

/-- A stateful allocator whose alignment exceeds that of a block. -/
def overaligned : AllocType where
  size := 96
  align := 32
  stateless := false
  align_twoPow := ⟨5, rfl⟩
  align_dvd_size := ⟨3, rfl⟩
  size_pos := by decide

/-- A frame of 100 bytes at an address that is a multiple of 16 and not of 32. -/
theorem operatorDelete_operatorNew_overaligned :
    ∃ b, operatorNew sixteen overaligned .erased (7 : Nat) 100 (fun _ => some 0x1010)
        (fun _ => none) = .frame b ∧
      (b.count = 14 ∧ b.deallocAt = some 0x1074 ∧ b.allocAt = some 0x1080) ∧
      WellPlaced sixteen overaligned 100 b ∧ Stores overaligned .erased b ∧
      Mirrors sixteen overaligned .erased 7 100 b := by
  have hnew : operatorNew sixteen overaligned .erased (7 : Nat) 100 (fun _ => some 0x1010)
      (fun _ => none) = .frame ⟨0x1010, _, some _, some _, _⟩ := rfl
  exact ⟨_, hnew, by decide, operatorDelete_operatorNew hnew (by decide) ⟨by decide, by decide⟩⟩

end PromiseAllocator

end AsyncSimple
