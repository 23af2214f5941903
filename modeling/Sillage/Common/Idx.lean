import Mathlib.Data.Finset.Max
import Mathlib.Data.List.AList
import Mathlib.Order.Lattice.Nat
import Mathlib.Tactic.Common
import Sillage.Common.Update

/-!
# The index file's header and its bitmaps

Dimension names, dimension values with the order of their enumeration, and the
header that an index file carries in front of its serialised bitmaps. A roaring
bitmap is a finite set of ordinals that is iterated in ascending order.
-/

namespace Sillage.Idx

open LittleEndian

/-- The letters SIDX. -/
def idxMagic : Bytes := [0x53, 0x49, 0x44, 0x58]

/-- The only version of the layout there is. -/
def idxVersion : UInt8 := 1

/-- The programs that a transaction calls. -/
def dimProgramId : String := "program_id"
/-- The accounts that a transaction names, loaded ones included. -/
def dimAccountKey : String := "account_key"
/-- The signature of a transaction. -/
def dimSignature : String := "signature"
/-- Whether a transaction is a vote. -/
def dimVoteFlag : String := "vote_flag"
/-- Whether a transaction has failed. -/
def dimFailedFlag : String := "failed_flag"
/-- The key of an account that is written. -/
def dimAccountPubkey : String := "account_pubkey"
/-- The program that owns an account. -/
def dimOwnerProgram : String := "owner_program"
/-- The slot of a block. -/
def dimSlot : String := "slot"
/-- The slot of the parent of a block. -/
def dimParentSlot : String := "parent_slot"

/-- A value of some dimension. -/
inductive DimValue where
  | bytes (value : Bytes)
  | u64 (value : Nat)
  | bool (value : Bool)
deriving DecidableEq

/-- The derived order: by constructor, then by content. -/
def DimValue.compare : DimValue → DimValue → Ordering
  | .bytes a, .bytes b => Ord.compare a b
  | .bytes _, _ => .lt
  | _, .bytes _ => .gt
  | .u64 a, .u64 b => Ord.compare a b
  | .u64 _, _ => .lt
  | _, .u64 _ => .gt
  | .bool a, .bool b => Ord.compare a b

/-- The order in which a map keeps the values of a dimension. -/
instance : Ord DimValue := ⟨DimValue.compare⟩

/-- Values that compare as equal are equal. -/
instance : Std.LawfulEqOrd DimValue where
  compare_self := by
    intro a
    cases a with
    | bytes value => exact (Std.ReflCmp.compare_self : Ord.compare value value = .eq)
    | u64 value => exact (Std.ReflCmp.compare_self : Ord.compare value value = .eq)
    | bool value => exact (Std.ReflCmp.compare_self : Ord.compare value value = .eq)
  eq_of_compare := by
    intro a b same
    change DimValue.compare a b = .eq at same
    cases a <;> cases b <;> simp only [DimValue.compare, reduceCtorEq] at same
    · exact congrArg _ (Std.LawfulEqCmp.eq_of_compare same)
    · exact congrArg _ (Std.LawfulEqCmp.eq_of_compare same)
    · exact congrArg _ (Std.LawfulEqCmp.eq_of_compare same)

/-- The comparison is transitive: kinds first, then within a kind. -/
instance : Std.TransOrd DimValue where
  eq_swap := by
    intro a b
    change DimValue.compare a b = (DimValue.compare b a).swap
    cases a <;> cases b <;> simp only [DimValue.compare, Ordering.swap]
    · exact Std.OrientedCmp.eq_swap
    · exact Std.OrientedCmp.eq_swap
    · exact Std.OrientedCmp.eq_swap
  isLE_trans := by
    intro a b c first second
    change (DimValue.compare a b).isLE at first
    change (DimValue.compare b c).isLE at second
    change (DimValue.compare a c).isLE
    cases a <;> cases b <;> cases c <;>
      simp only [DimValue.compare, Ordering.isLE_lt, Ordering.isLE_gt, Bool.false_eq_true]
        at first second ⊢
    · exact Std.TransCmp.isLE_trans first second
    · exact Std.TransCmp.isLE_trans first second
    · exact Std.TransCmp.isLE_trans first second

/-- The declared type of a dimension's values. -/
inductive DimValueType where
  | pubkey32
  | signature64
  | u64
  | bool
deriving DecidableEq

/-- Where the bitmap of one value lies in the body. -/
structure DimEntryHeader where
  value : DimValue
  offset : Nat
  length : Nat
deriving DecidableEq

/-- A dimension in the header: its name, the type of its values, and the entries. -/
structure DimensionHeader where
  name : String
  valueType : DimValueType
  entries : List DimEntryHeader
deriving DecidableEq

/-- The header of an index file, in front of the bitmaps. -/
structure IdxHeader where
  stream : String
  startSlot : Nat
  endSlot : Nat
  messageCount : Nat
  dimensions : List DimensionHeader
deriving DecidableEq, Inhabited

/-- A set of 32-bit ordinals. -/
abbrev RoaringBitmap := Finset Nat

/-- The ordinals of a bitmap in ascending order. -/
def ordinals (bitmap : RoaringBitmap) : List Nat :=
  (List.range (bitmap.sup id + 1)).filter (· ∈ bitmap)

/-- Iteration visits exactly the members. -/
@[simp] theorem mem_ordinals (bitmap : RoaringBitmap) (ord : Nat) :
    ord ∈ ordinals bitmap ↔ ord ∈ bitmap := by
  simp only [ordinals, List.mem_filter, List.mem_range, decide_eq_true_eq, and_iff_right_iff_imp]
  intro member
  exact Nat.lt_succ_of_le (Finset.le_sup (f := id) member)

/-- Iteration is strictly ascending. -/
theorem ordinals_ascending (bitmap : RoaringBitmap) : (ordinals bitmap).Pairwise (· < ·) :=
  List.pairwise_lt_range.filter _

/-- No ordinal is listed twice. -/
theorem ordinals_nodup (bitmap : RoaringBitmap) : (ordinals bitmap).Nodup :=
  (ordinals_ascending bitmap).imp Nat.ne_of_lt

/-- Nothing is visited exactly when the bitmap is empty. -/
theorem ordinals_eq_nil (bitmap : RoaringBitmap) : ordinals bitmap = [] ↔ bitmap = ∅ := by
  constructor
  · intro none
    ext ord
    rw [← mem_ordinals, none]
    simp
  · intro empty
    simp [empty, ordinals]

/-- As many ordinals are listed as there are in the bitmap. -/
theorem ordinals_length (bitmap : RoaringBitmap) : (ordinals bitmap).length = bitmap.card := by
  have same : (ordinals bitmap).toFinset = bitmap := by
    ext ord
    simp
  rw [← List.toFinset_card_of_nodup (ordinals_nodup bitmap), same]

end Sillage.Idx
