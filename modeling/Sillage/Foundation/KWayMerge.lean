import Mathlib.Data.Finset.Max
import Mathlib.Data.Fintype.Basic
import Mathlib.Data.Prod.Lex
import Mathlib.Algebra.BigOperators.Group.Finset.Basic
import Mathlib.Algebra.Order.BigOperators.Group.Finset

/-!
# Merging several queues by a key

Each of finitely many queues offers its head; the head with the least key is
emitted, the earlier queue winning a tie. The relation below is the complete
emission of such a merge, tagged with the queue every element came from. It
holds for one list only and exists for every family of queues.

A merge keeps each queue's order and loses nothing. It is sorted when every
queue is. Dropping the elements below a bound commutes with merging, although
the queues need not be sorted. For unsorted queues the last emission is the end
of the queue that holds the greatest key, so that the emission ends at its
greatest key exactly when that queue does.
-/

namespace Sillage.KWayMerge

universe u v w
variable {ι : Type u} {κ : Type v} {α : Type w} [LinearOrder ι] [LinearOrder κ]

/-- The order of emission between two heads: by key, then by queue. -/
def Before (key : α → κ) (left right : ι × α) : Prop :=
  key left.2 < key right.2 ∨ (key left.2 = key right.2 ∧ left.1 ≤ right.1)

/-- The head that a merge emits next, with the rest of its queue. -/
structure Leads (key : α → κ) (queues : ι → List α) (i : ι) (a : α) (rest : List α) : Prop where
  head : queues i = a :: rest
  least : ∀ j b tail, queues j = b :: tail → Before key (i, a) (j, b)

/-- The complete emission of a merge. -/
inductive Merged (key : α → κ) : (ι → List α) → List (ι × α) → Prop where
  | done (queues : ι → List α) (drained : ∀ i, queues i = []) : Merged key queues []
  | emit (queues : ι → List α) (i : ι) (a : α) (rest : List α) (out : List (ι × α))
      (leads : Leads key queues i a rest)
      (later : Merged key (Function.update queues i rest) out) :
      Merged key queues ((i, a) :: out)

variable {key : α → κ} {queues : ι → List α}

/-- A head comes no later than itself. -/
theorem before_refl (key : α → κ) (x : ι × α) : Before key x x := .inr ⟨rfl, le_rfl⟩

/-- The order of heads is transitive. -/
theorem before_trans {x y z : ι × α} (first : Before key x y) (second : Before key y z) :
    Before key x z := by
  rcases first with less | ⟨same, index⟩ <;> rcases second with less' | ⟨same', index'⟩
  · exact .inl (less.trans less')
  · exact .inl (same' ▸ less)
  · exact .inl (same ▸ less')
  · exact .inr ⟨same.trans same', index.trans index'⟩

/-- A head that comes first has no greater key. -/
theorem before_key {x y : ι × α} (ordered : Before key x y) : key x.2 ≤ key y.2 := by
  rcases ordered with less | ⟨same, _⟩
  · exact less.le
  · exact same.le

/-- Of two heads one comes first. -/
theorem before_total (key : α → κ) (x y : ι × α) : Before key x y ∨ Before key y x := by
  rcases lt_trichotomy (key x.2) (key y.2) with less | same | greater
  · exact .inl (.inl less)
  · rcases le_total x.1 y.1 with index | index
    · exact .inl (.inr ⟨same, index⟩)
    · exact .inr (.inr ⟨same.symm, index⟩)
  · exact .inr (.inl greater)

/-- Two heads that precede each other come from one queue. -/
theorem before_antisymm {x y : ι × α} (first : Before key x y) (second : Before key y x) :
    x.1 = y.1 ∧ key x.2 = key y.2 := by
  rcases first with less | ⟨same, index⟩ <;> rcases second with less' | ⟨same', index'⟩
  · exact absurd less' less.not_gt
  · exact absurd less (same' ▸ lt_irrefl _)
  · exact absurd less' (same ▸ lt_irrefl _)
  · exact ⟨le_antisymm index index', same⟩

/-- The next emission is determined by the queues. -/
theorem leads_unique {i j : ι} {a b : α} {rest tail : List α}
    (first : Leads key queues i a rest) (second : Leads key queues j b tail) :
    i = j ∧ a = b ∧ rest = tail := by
  have same : i = j :=
    (before_antisymm (first.least j b tail second.head) (second.least i a rest first.head)).1
  subst same
  have heads : a :: rest = b :: tail := first.head.symm.trans second.head
  exact ⟨rfl, List.cons.inj heads⟩

/-- Some queue leads while any queue is nonempty: among the nonempty queues take
the least pair of head key and index. -/
theorem exists_leads [Fintype ι] (key : α → κ) {queues : ι → List α} {i : ι}
    (nonempty : queues i ≠ []) : ∃ j a rest, Leads key queues j a rest := by
  obtain ⟨b, tail, head⟩ := List.exists_cons_of_ne_nil nonempty
  let offers : Finset (κ ×ₗ ι) := Finset.univ.biUnion
    (fun j => ((queues j).head?.map (fun a => toLex (key a, j))).toFinset)
  have member : ∀ j a, (queues j).head? = some a → toLex (key a, j) ∈ offers := by
    intro j a offered
    simp only [offers, Finset.mem_biUnion, Finset.mem_univ, true_and]
    exact ⟨j, by simp [offered]⟩
  have occupied : offers.Nonempty := ⟨_, member i b (by simp [head])⟩
  obtain ⟨least, isMember, isLeast⟩ := offers.exists_min_image id occupied
  simp only [offers, Finset.mem_biUnion, Finset.mem_univ, true_and, Option.mem_toFinset,
    Option.mem_def, Option.map_eq_some_iff] at isMember
  obtain ⟨j, a, offered, rfl⟩ := isMember
  obtain ⟨rest, leading⟩ := List.head?_eq_some_iff.mp offered
  refine ⟨j, a, rest, leading, ?_⟩
  intro j' a' rest' leading'
  have ordered := isLeast _ (member j' a' (by simp [leading']))
  rcases Prod.Lex.toLex_le_toLex.mp ordered with less | ⟨same, index⟩
  · exact .inl less
  · exact .inr ⟨same, index⟩

/-- Empty queues emit nothing. -/
theorem merged_of_drained {out : List (ι × α)} (drained : ∀ i, queues i = [])
    (merged : Merged key queues out) : out = [] := by
  cases merged with
  | done _ _ => rfl
  | emit _ i a rest out leads later =>
    have head := leads.head
    simp [drained i] at head

/-- Removing one head shortens the queues by one element in total. -/
theorem total_update [Fintype ι] {i : ι} {a : α} {rest : List α} (head : queues i = a :: rest) :
    ∑ j, (queues j).length = (∑ j, (Function.update queues i rest j).length) + 1 := by
  rw [← Finset.add_sum_erase _ _ (Finset.mem_univ i),
    ← Finset.add_sum_erase Finset.univ (fun j => (Function.update queues i rest j).length)
      (Finset.mem_univ i)]
  have others : ∑ j ∈ Finset.univ.erase i, (Function.update queues i rest j).length =
      ∑ j ∈ Finset.univ.erase i, (queues j).length := by
    refine Finset.sum_congr rfl (fun j member => ?_)
    rw [Function.update_of_ne (Finset.ne_of_mem_erase member)]
  rw [others, Function.update_self, head, List.length_cons]
  omega

/-- Every family of finitely many queues can be merged. The total length
decreases with each emission. -/
theorem exists_merged [Fintype ι] (key : α → κ) (queues : ι → List α) :
    ∃ out, Merged key queues out := by
  induction size : ∑ j, (queues j).length generalizing queues with
  | zero =>
    have drained : ∀ i, queues i = [] := by
      intro i
      have bound := Finset.single_le_sum (f := fun j => (queues j).length)
        (fun _ _ => Nat.zero_le _) (Finset.mem_univ i)
      exact List.length_eq_zero_iff.mp (by omega)
    exact ⟨[], .done queues drained⟩
  | succ total inductionHypothesis =>
    by_cases drained : ∀ i, queues i = []
    · exact ⟨[], .done queues drained⟩
    · obtain ⟨i, nonempty⟩ := not_forall.mp drained
      obtain ⟨j, a, rest, leads⟩ := exists_leads key nonempty
      have shorter : ∑ k, (Function.update queues j rest k).length = total := by
        have exact := total_update leads.head
        omega
      obtain ⟨out, merged⟩ := inductionHypothesis _ shorter
      exact ⟨(j, a) :: out, .emit queues j a rest out leads merged⟩

/-- A merge is as long as its queues together. -/
theorem merged_length [Fintype ι] {out : List (ι × α)} (merged : Merged key queues out) :
    out.length = ∑ i, (queues i).length := by
  induction merged with
  | done queues drained => simp [drained]
  | emit queues i a rest out leads later inductionHypothesis =>
    rw [total_update leads.head, List.length_cons, inductionHypothesis]

/-- Every queue is emitted completely and in its own order. -/
theorem merged_restrict {out : List (ι × α)} (merged : Merged key queues out) (i : ι) :
    (out.filter (fun x => x.1 = i)).map Prod.snd = queues i := by
  induction merged with
  | done queues drained => simp [drained i]
  | emit queues j a rest out leads later inductionHypothesis =>
    by_cases same : j = i
    · subst same
      rw [Function.update_self] at inductionHypothesis
      simp [inductionHypothesis, leads.head]
    · rw [Function.update_of_ne (Ne.symm same)] at inductionHypothesis
      simp [same, inductionHypothesis]

/-- An element is emitted exactly when its queue holds it. -/
theorem mem_merged {out : List (ι × α)} (merged : Merged key queues out) (x : ι × α) :
    x ∈ out ↔ x.2 ∈ queues x.1 := by
  rw [← merged_restrict merged x.1]
  constructor
  · intro member
    exact List.mem_map.mpr ⟨x, List.mem_filter.mpr ⟨member, by simp⟩, rfl⟩
  · intro member
    obtain ⟨y, kept, same⟩ := List.mem_map.mp member
    obtain ⟨emitted, index⟩ := List.mem_filter.mp kept
    have equal : y = x := Prod.ext (by simpa using index) same
    exact equal ▸ emitted

/-- What is left behind an emission was there before. -/
theorem Leads.mem_of_mem_update {queues : ι → List α} {i : ι} {a : α} {rest : List α}
    (leads : Leads key queues i a rest) (j : ι) (b : α)
    (member : b ∈ Function.update queues i rest j) : b ∈ queues j := by
  by_cases same : j = i
  · subst same
    rw [Function.update_self] at member
    rw [leads.head]
    exact List.mem_cons_of_mem _ member
  · rwa [Function.update_of_ne same] at member

/-- Labels that tell the elements of every queue apart, and one queue from another, tell
the emissions apart. -/
theorem merged_nodup {β : Type*} {label : α → β} {out : List (ι × α)}
    (merged : Merged key queues out) (each : ∀ i, ((queues i).map label).Nodup)
    (apart : ∀ i j a b, a ∈ queues i → b ∈ queues j → label a = label b → i = j) :
    (out.map (fun x => label x.2)).Nodup := by
  induction merged with
  | done queues drained => exact List.nodup_nil
  | emit queues i a rest out leads later inductionHypothesis =>
    have below := leads.mem_of_mem_update
    have own := each i
    rw [leads.head, List.map_cons, List.nodup_cons] at own
    refine List.nodup_cons.mpr ⟨?_, inductionHypothesis (fun j => ?_)
      (fun j j' b b' member member' => apart j j' b b' (below j b member) (below j' b' member'))⟩
    · rintro again
      obtain ⟨⟨j, b⟩, emitted, same⟩ := List.mem_map.mp again
      have member := (mem_merged later (j, b)).mp emitted
      obtain rfl : j = i := apart j i b a (below j b member) (by simp [leads.head]) same
      rw [Function.update_self] at member
      exact own.1 (List.mem_map.mpr ⟨b, member, same⟩)
    · by_cases same : j = i
      · subst same
        rw [Function.update_self]
        exact own.2
      · rw [Function.update_of_ne same]
        exact each j

/-- Sorted queues merge to a sorted emission. The leading head precedes every
head, hence every element of every queue. -/
theorem merged_sorted {out : List (ι × α)} (merged : Merged key queues out)
    (sorted : ∀ i, (queues i).Pairwise (fun a b => key a ≤ key b)) :
    out.Pairwise (Before key) := by
  induction merged with
  | done queues drained => exact List.Pairwise.nil
  | emit queues i a rest out leads later inductionHypothesis =>
    have ordered := sorted i
    rw [leads.head] at ordered
    have restSorted : ∀ j, (Function.update queues i rest j).Pairwise
        (fun a b => key a ≤ key b) := by
      intro j
      by_cases same : j = i
      · subst same
        rw [Function.update_self]
        exact (List.pairwise_cons.mp ordered).2
      · rw [Function.update_of_ne same]
        exact sorted j
    refine List.pairwise_cons.mpr ⟨?_, inductionHypothesis restSorted⟩
    rintro ⟨j, b⟩ emitted
    have member : b ∈ Function.update queues i rest j := (mem_merged later (j, b)).mp emitted
    by_cases same : j = i
    · subst same
      rw [Function.update_self] at member
      rcases lt_or_eq_of_le ((List.pairwise_cons.mp ordered).1 b member) with less | equal
      · exact .inl less
      · exact .inr ⟨equal, le_rfl⟩
    · rw [Function.update_of_ne same] at member
      obtain ⟨c, tail, head⟩ := List.exists_cons_of_ne_nil (List.ne_nil_of_mem member)
      have first := leads.least j c tail head
      have tailSorted := sorted j
      rw [head] at tailSorted member
      rcases List.mem_cons.mp member with rfl | later
      · exact first
      · have bound := (List.pairwise_cons.mp tailSorted).1 b later
        rcases lt_or_eq_of_le bound with less | equal
        · exact before_trans first (.inl less)
        · exact before_trans first (.inr ⟨equal, le_rfl⟩)

/-- Dropping every element below a bound commutes with merging. An element at or
above the bound leads only when every head is at or above it too. -/
theorem merged_filter {out : List (ι × α)} (bound : κ) (merged : Merged key queues out) :
    Merged key (fun i => (queues i).filter (fun a => bound ≤ key a))
      (out.filter (fun x => bound ≤ key x.2)) := by
  induction merged with
  | done queues drained => exact .done _ (fun i => by simp [drained i])
  | emit queues i a rest out leads later inductionHypothesis =>
    by_cases kept : bound ≤ key a
    · rw [List.filter_cons_of_pos (by simpa using kept)]
      refine .emit _ i a (rest.filter (fun b => bound ≤ key b)) _ ⟨by simp [leads.head, kept], ?_⟩ ?_
      · intro j b tail head
        obtain ⟨c, whole, nonempty⟩ := List.exists_cons_of_ne_nil
          (l := queues j) (by intro empty; simp [empty] at head)
        have first := leads.least j c whole nonempty
        have above : bound ≤ key c := kept.trans (before_key first)
        rw [nonempty, List.filter_cons_of_pos (by simpa using above)] at head
        exact (List.cons.inj head).1 ▸ first
      · convert inductionHypothesis using 1
        funext j
        by_cases same : j = i
        · subst same
          simp
        · simp [Function.update_of_ne same]
    · rw [List.filter_cons_of_neg (by simpa using kept)]
      convert inductionHypothesis using 1
      funext j
      by_cases same : j = i
      · subst same
        simp [leads.head, kept]
      · simp [Function.update_of_ne same]

/-- An element of the queues that no other element follows in the order of
emission keys. -/
def Greatest (key : α → κ) (queues : ι → List α) (i : ι) (a : α) : Prop :=
  a ∈ queues i ∧ ∀ j b, b ∈ queues j → Before key (j, b) (i, a)

/-- A nonempty list has an element of greatest key. -/
theorem exists_greatest_key (key : α → κ) {items : List α} (nonempty : items ≠ []) :
    ∃ a ∈ items, ∀ b ∈ items, key b ≤ key a := by
  induction items with
  | nil => exact absurd rfl nonempty
  | cons head rest inductionHypothesis =>
    by_cases empty : rest = []
    · exact ⟨head, List.mem_cons_self, by simp [empty]⟩
    · obtain ⟨a, member, bound⟩ := inductionHypothesis empty
      rcases le_total (key a) (key head) with below | above
      · refine ⟨head, List.mem_cons_self, ?_⟩
        intro b among
        rcases List.mem_cons.mp among with rfl | later
        · exact le_rfl
        · exact (bound b later).trans below
      · refine ⟨a, List.mem_cons_of_mem _ member, ?_⟩
        intro b among
        rcases List.mem_cons.mp among with rfl | later
        · exact above
        · exact bound b later

/-- The last emission is the end of the queue that holds a greatest element.

While another queue leads, that queue is untouched. When it leads with a
greatest element itself, every other queue is already empty. -/
theorem merged_last {out : List (ι × α)} (merged : Merged key queues out) {i : ι} {a : α}
    (greatest : Greatest key queues i a) :
    out.getLast? = (queues i).getLast?.map (fun z => (i, z)) := by
  induction merged generalizing i a with
  | done queues drained => simp [Greatest, drained i] at greatest
  | emit queues j b rest out leads later inductionHypothesis =>
    obtain ⟨member, top⟩ := greatest
    -- the merge of what is left decides the last emission as soon as it is nonempty
    have extend : ∀ z, out.getLast? = some z → ((j, b) :: out).getLast? = some z := by
      intro z last
      rw [List.getLast?_cons, last]
      rfl
    by_cases same : j = i
    · subst same
      have onlyQueue : a = b ∨ a ∈ rest := by
        rw [leads.head] at member
        exact List.mem_cons.mp member
      by_cases exhausted : rest = []
      · have isHead : a = b := by simpa [exhausted] using onlyQueue
        subst isHead
        have drained : ∀ k, Function.update queues j rest k = [] := by
          intro k
          by_cases other : k = j
          · subst other
            simp [exhausted]
          · rw [Function.update_of_ne other]
            by_contra nonempty
            obtain ⟨c, tail, head⟩ := List.exists_cons_of_ne_nil nonempty
            have above := leads.least k c tail head
            have below := top k c (by simp [head])
            exact other (before_antisymm below above).1
        rw [merged_of_drained drained later, leads.head, exhausted]
        rfl
      · -- a greatest element of what is left of this queue
        have below := leads.mem_of_mem_update
        have remaining : ∃ c, Greatest key (Function.update queues j rest) j c := by
          by_cases kept : a ∈ rest
          · exact ⟨a, by simpa using kept, fun k c among => top k c (below k c among)⟩
          · have isHead : a = b := onlyQueue.resolve_right kept
            subst isHead
            obtain ⟨c, among, bound⟩ := exists_greatest_key key exhausted
            refine ⟨c, by simpa using among, ?_⟩
            intro k d found
            by_cases other : k = j
            · subst other
              rw [Function.update_self] at found
              rcases lt_or_eq_of_le (bound d found) with less | equal
              · exact .inl less
              · exact .inr ⟨equal, le_rfl⟩
            · rw [Function.update_of_ne other] at found
              obtain ⟨e, tail, head⟩ := List.exists_cons_of_ne_nil (List.ne_nil_of_mem found)
              have above := leads.least k e tail head
              have under := top k e (by simp [head])
              exact absurd (before_antisymm under above).1 other
        obtain ⟨c, greatest⟩ := remaining
        have ends := inductionHypothesis greatest
        rw [Function.update_self] at ends
        obtain ⟨z, last⟩ := Option.ne_none_iff_exists'.mp
          (mt List.getLast?_eq_none_iff.mp exhausted)
        rw [extend (j, z) (by simp [ends, last]), leads.head, List.getLast?_cons, last]
        rfl
    · have untouched : Function.update queues j rest i = queues i :=
        Function.update_of_ne (Ne.symm same) ..
      have still : Greatest key (Function.update queues j rest) i a := by
        refine ⟨untouched.symm ▸ member, ?_⟩
        exact fun k c among => top k c (leads.mem_of_mem_update k c among)
      have ends := inductionHypothesis still
      rw [untouched] at ends
      obtain ⟨z, last⟩ := Option.ne_none_iff_exists'.mp
        (mt List.getLast?_eq_none_iff.mp (List.ne_nil_of_mem member))
      rw [extend (i, z) (by simp [ends, last]), last]
      rfl

/-- The queue holding the greatest element ends with an element of its key. -/
def EndsHigh (key : α → κ) (queues : ι → List α) : Prop :=
  ∀ i a, Greatest key queues i a → ∃ z, (queues i).getLast? = some z ∧ key z = key a

/-- Sorted queues end high. -/
theorem endsHigh_of_sorted (sorted : ∀ i, (queues i).Pairwise (fun a b => key a ≤ key b)) :
    EndsHigh key queues := by
  intro i a greatest
  obtain ⟨z, last⟩ := Option.ne_none_iff_exists'.mp
    (mt List.getLast?_eq_none_iff.mp (List.ne_nil_of_mem greatest.1))
  refine ⟨z, last, le_antisymm ?_ ?_⟩
  · exact before_key (greatest.2 i z (List.mem_of_getLast? last))
  · obtain ⟨front, split⟩ := List.getLast?_eq_some_iff.mp last
    have ordered := sorted i
    have member := greatest.1
    rw [split] at ordered member
    rcases List.mem_append.mp member with before | here
    · exact (List.pairwise_append.mp ordered).2.2 a before z (List.mem_singleton_self z)
    · rw [List.mem_singleton.mp here]

/-- An emission that is not empty has a greatest element. -/
theorem exists_greatest {out : List (ι × α)} (merged : Merged key queues out) (nonempty : out ≠ []) :
    ∃ i a, Greatest key queues i a := by
  have total : ∀ items : List (ι × α), items ≠ [] →
      ∃ top ∈ items, ∀ x ∈ items, Before key x top := by
    intro items
    induction items with
    | nil => exact fun impossible => absurd rfl impossible
    | cons head rest inductionHypothesis =>
      intro _
      by_cases empty : rest = []
      · exact ⟨head, List.mem_cons_self, by simp [empty, before_refl]⟩
      · obtain ⟨top, member, bound⟩ := inductionHypothesis empty
        rcases before_total key top head with below | above
        · refine ⟨head, List.mem_cons_self, ?_⟩
          intro x among
          rcases List.mem_cons.mp among with rfl | later
          · exact before_refl key _
          · exact before_trans (bound x later) below
        · refine ⟨top, List.mem_cons_of_mem _ member, ?_⟩
          intro x among
          rcases List.mem_cons.mp among with rfl | later
          · exact above
          · exact bound x later
  obtain ⟨⟨i, a⟩, member, bound⟩ := total out nonempty
  exact ⟨i, a, (mem_merged merged (i, a)).mp member,
    fun j b among => bound (j, b) ((mem_merged merged (j, b)).mpr among)⟩

/-- A nonempty emission ends at its greatest key exactly when the queues end
high. -/
theorem merged_ends_high {out : List (ι × α)} (merged : Merged key queues out) (last : ι × α)
    (ends : out.getLast? = some last) :
    EndsHigh key queues ↔ ∀ x ∈ out, key x.2 ≤ key last.2 := by
  have nonempty : out ≠ [] := by
    intro empty
    simp [empty] at ends
  constructor
  · intro high x emitted
    obtain ⟨i, a, greatest⟩ := exists_greatest merged nonempty
    obtain ⟨z, final, same⟩ := high i a greatest
    have isLast : last = (i, z) := by
      have exact := merged_last merged greatest
      rw [ends, final] at exact
      simpa using exact
    rw [isLast, same]
    exact before_key (greatest.2 x.1 x.2 ((mem_merged merged x).mp emitted))
  · intro bound i a greatest
    have exact := merged_last merged greatest
    rw [ends] at exact
    obtain ⟨z, final, same⟩ := Option.map_eq_some_iff.mp exact.symm
    refine ⟨z, final, ?_⟩
    have above : key a ≤ key z := by
      have limit := bound (i, a) ((mem_merged merged (i, a)).mpr greatest.1)
      rwa [← same] at limit
    have member : z ∈ queues i := List.mem_of_getLast? final
    exact le_antisymm (before_key (greatest.2 i z member)) above

end Sillage.KWayMerge
