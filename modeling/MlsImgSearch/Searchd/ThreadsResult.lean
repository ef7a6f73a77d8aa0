import Mathlib.Algebra.BigOperators.Group.List.Basic
import Mathlib.Algebra.Group.WithOne.Defs
import MlsImgSearch.Searchd.DistributedMerge

/-!
# Merging one reply

`MergeThreadsResult` walks through the list of the client with `it_curr` and
reads the entry there for every picture of the reply. Both the branch for a
common picture and the one that appends leave `it_curr` at `end()`, and the
next turn of the loop reads it there. This module says when that happens, what
the call does otherwise, and that the order of the replies is then of no
importance.
-/

namespace MlsImgSearch.Searchd.ThreadsResult

open MlsImgSearch.Lib.Run
open MlsImgSearch.Lib.SortedList
open MlsImgSearch.Lib.SparseList
open MlsImgSearch.BofCore.Searcher
open MlsImgSearch.Searchd.DistributedMerge

/-! ## Reads through `end()` -/

/-- The loop from the cursor on reads `it_curr` at `end()`: a picture of the reply is left when the
cursor is there. -/
def readsEndFrom : List MergeSimilarInfo → List MergeSimilarInfo → List MergeSimilarInfo → Bool
  | [], _, _ => false
  | _ :: _, _, [] => true
  | reply :: replies, before, cur :: after =>
      let cursor := walkReply reply before (cur :: after)
      readsEndFrom replies cursor.1 cursor.2

/-- `MergeThreadsResult` reads `it_curr` at `end()`; the loop is not reached with an empty list. -/
def readsEnd (threadResult resultSimilar : List MergeSimilarInfo) : Bool :=
  if threadResult.length = 0 then false
  else if resultSimilar.length = 0 then false
  else readsEndFrom threadResult [] resultSimilar

/-! ## The union of a list and a reply -/

/-- `merged` is `result` with the pictures of `replies` added. -/
structure IsUnion (replies result merged : List MergeSimilarInfo) : Prop where
  ascending : Ascending simKey merged
  keys : ∀ k, (∃ info ∈ merged, simKey info = k) ↔
    (∃ info ∈ result, simKey info = k) ∨ ∃ reply ∈ replies, simKey reply = k
  both : ∀ info ∈ result, ∀ reply ∈ replies, simKey reply = simKey info →
    ⟨info.sim + reply.sim, info.pow + reply.pow, info.picId⟩ ∈ merged
  left : ∀ info ∈ result, (∀ reply ∈ replies, simKey reply ≠ simKey info) → info ∈ merged
  right : ∀ reply ∈ replies, (∀ info ∈ result, simKey info ≠ simKey reply) → reply ∈ merged

/-- The call does not read through `end()`, returns 0 and leaves the union. -/
def Merges (endPic : BitVec 64) (replies result : List MergeSimilarInfo) : Prop :=
  readsEnd replies result = false ∧
    ∃ merged, mergeThreadsResult endPic replies result = some (0, merged) ∧
      IsUnion replies result merged

/-- The list is empty, or reaches beyond each picture of the reply but the last one. -/
def Covered (replies result : List MergeSimilarInfo) : Prop :=
  result = [] ∨ ∀ earlier ∈ replies, ∀ later ∈ replies, simKey earlier < simKey later →
    ∃ info ∈ result, simKey earlier < simKey info

instance decidableCovered (replies result : List MergeSimilarInfo) :
    Decidable (Covered replies result) := by
  unfold Covered
  infer_instance

/-- What lies behind the list during a merge, and the reply. -/
abbrev Reply := BitVec 64 × List MergeSimilarInfo

/-- The next state of `result_similar_`. -/
def mergeStep (result : List MergeSimilarInfo) (reply : Reply) : Option (List MergeSimilarInfo) :=
  (mergeThreadsResult reply.1 reply.2 result).map Prod.snd

/-- Each merge of a run does what `Merges` says. -/
abbrev AllMerge (start : List MergeSimilarInfo) (order : List Reply) : Prop :=
  Meets mergeStep (fun result reply => Merges reply.1 reply.2 result) start order

/-- Each merge of a run meets a list that `Covered` allows. -/
abbrev AllCovered (start : List MergeSimilarInfo) (order : List Reply) : Prop :=
  Meets mergeStep (fun result reply => Covered reply.2 result) start order

/-! ## A listed picture as a value -/

/-- The value of a listed picture; zero is that of a picture that is not listed. -/
def listed (info : MergeSimilarInfo) : WithZero (ℚ × ℚ) := (simValue info : ℚ × ℚ)

theorem listed_ne_zero (info : MergeSimilarInfo) : listed info ≠ 0 := WithZero.coe_ne_zero

theorem adding_listed : Adding listed (· ≠ 0) := by
  refine ⟨fun reply cur => WithZero.coe_add (simValue cur) (simValue reply), fun v w hv hw => ?_⟩
  induction v with
  | zero => exact absurd rfl hv
  | coe v =>
      induction w with
      | zero => exact absurd rfl hw
      | coe w => exact WithZero.coe_ne_zero

theorem canonical_listed {result : List MergeSimilarInfo} (asc : Ascending simKey result) :
    Canonical simKey listed (· ≠ 0) result :=
  ⟨asc, fun info _ => listed_ne_zero info⟩

theorem listed_ext (a b : MergeSimilarInfo) (sameKey : simKey a = simKey b)
    (sameValue : listed a = listed b) : a = b :=
  simInfo_ext a b sameKey (WithZero.coe_inj.mp sameValue)

theorem mem_of_coeff_listed {result : List MergeSimilarInfo} (asc : Ascending simKey result)
    {info : MergeSimilarInfo} (value : coeff simKey listed result (simKey info) = listed info) :
    info ∈ result := by
  obtain ⟨other, member, sameKey, sameValue⟩ :=
    exists_mem_of_coeff asc (value.symm ▸ listed_ne_zero info)
  rwa [← listed_ext other info sameKey (sameValue.trans value)]

/-- To add the values of the reply is to form the union. -/
theorem IsUnion.of_adds {replies result merged : List MergeSimilarInfo}
    (asc : Ascending simKey result) (ascReplies : Ascending simKey replies)
    (adds : Adds simKey listed (· ≠ 0) (coeff simKey listed replies)
      (fun k => ∃ reply ∈ replies, simKey reply = k) result merged) :
    IsUnion replies result merged := by
  have ascending := adds.canonical.ascending
  refine ⟨ascending, adds.mem_key, fun info member reply replied same => ?_,
    fun info member absent => ?_, fun reply replied absent => ?_⟩
  · refine mem_of_coeff_listed ascending ?_
    have value := adds.coeff_eq (simKey info)
    rw [coeff_of_mem asc member] at value
    rw [← same, coeff_of_mem ascReplies replied, same] at value
    exact value.trans (adding_listed.val_add reply info).symm
  · refine mem_of_coeff_listed ascending ?_
    rw [adds.coeff_eq, coeff_of_mem asc member, coeff_eq_zero absent, add_zero]
  · refine mem_of_coeff_listed ascending ?_
    rw [adds.coeff_eq, coeff_of_mem ascReplies replied, coeff_eq_zero absent, zero_add]

/-! ## When the loop reads through `end()` -/

/-- The loop reads through `end()` if some memory behind the list would make it write there. -/
theorem readsEndFrom_iff (replies before after : List MergeSimilarInfo) :
    readsEndFrom replies before after = true ↔
      ∃ endPic, mergeReplies endPic replies before after = none := by
  induction replies generalizing before after with
  | nil =>
      constructor
      · intro reads
        cases reads
      · rintro ⟨_, fails⟩
        cases fails
  | cons reply replies ih =>
      cases after with
      | nil =>
          refine iff_of_true rfl ⟨reply.picId, ?_⟩
          rw [mergeReplies, placeReply, if_neg (lt_irrefl _), if_pos rfl, Option.bind_none]
      | cons cur after =>
          exact ih _ _

theorem covered_iff_clear {replies result : List MergeSimilarInfo} :
    Covered replies result ↔ ∀ endPic, ¬ (result ≠ [] ∧ ReplyCollides endPic replies result) := by
  constructor
  · rintro (empty | covered) endPic ⟨some', reply, member, _, earlier, earlierIn, less, all⟩
    · exact some' empty
    · obtain ⟨info, inside, beyond⟩ := covered earlier earlierIn reply member less
      exact (all info inside).not_gt beyond
  · intro clear
    refine or_iff_not_imp_left.mpr fun some' earlier earlierIn later laterIn less => ?_
    by_contra none'
    refine clear later.picId ⟨some', later, laterIn, rfl, earlier, earlierIn, less, ?_⟩
    exact fun info inside => not_lt.mp fun beyond => none' ⟨info, inside, beyond⟩

section Merge

variable {replies result : List MergeSimilarInfo} (ascReplies : Ascending simKey replies)
  (asc : Ascending simKey result) (some' : replies ≠ [])

include ascReplies asc some'

theorem readsEnd_iff : readsEnd replies result = true ↔ ¬ Covered replies result := by
  rw [readsEnd, if_neg (fun none' => some' (List.eq_nil_of_length_eq_zero none')),
    covered_iff_clear, not_forall]
  simp only [not_not]
  by_cases empty : result = []
  · rw [if_pos (by rw [empty]; rfl)]
    exact iff_of_false (fun reads => nomatch reads) fun ⟨_, both, _⟩ => both empty
  · rw [if_neg (fun none' => empty (List.eq_nil_of_length_eq_zero none')), readsEndFrom_iff]
    refine exists_congr fun endPic => ?_
    obtain ⟨fails, works⟩ := mergeReplies_spec adding_listed endPic [] result
      (canonical_listed asc) (canonical_listed ascReplies) fun _ member => nomatch member
    constructor
    · intro failed
      by_contra clear
      obtain ⟨merged, ran, _⟩ := works (by
        rintro (⟨none', _⟩ | collides)
        · exact empty none'
        · exact clear ⟨empty, collides⟩)
      rw [failed] at ran
      cases ran
    · exact fun both => fails (Or.inr both.2)

theorem mergeThreadsResult_adds (endPic : BitVec 64) (covered : Covered replies result) :
    ∃ merged, mergeThreadsResult endPic replies result = some (0, merged) ∧
      Adds simKey listed (· ≠ 0) (coeff simKey listed replies)
        (fun k => ∃ reply ∈ replies, simKey reply = k) result merged :=
  (mergeThreadsResult_spec adding_listed endPic (canonical_listed asc)
    (canonical_listed ascReplies) some').2 (covered_iff_clear.mp covered endPic)

theorem merges_iff (endPic : BitVec 64) : Merges endPic replies result ↔ Covered replies result := by
  constructor
  · rintro ⟨inside, _⟩
    by_contra uncovered
    rw [(readsEnd_iff ascReplies asc some').mpr uncovered] at inside
    cases inside
  · intro covered
    obtain ⟨merged, ran, adds⟩ := mergeThreadsResult_adds ascReplies asc some' endPic covered
    refine ⟨?_, merged, ran, IsUnion.of_adds asc ascReplies adds⟩
    exact Bool.eq_false_iff.mpr fun reads => (readsEnd_iff ascReplies asc some').mp reads covered

end Merge

/-! ## Any order of the replies -/

/-- A reply as the servers send it. -/
def Sent (reply : Reply) : Prop := Ascending simKey reply.2 ∧ reply.2 ≠ []

/-- A run over covered lists adds up the replies. -/
theorem exec_covered {order : List Reply} (sent : ∀ reply ∈ order, Sent reply)
    {start : List MergeSimilarInfo} (asc : Ascending simKey start)
    (covered : AllCovered start order) :
    ∃ final, exec mergeStep start order = some final ∧ Ascending simKey final ∧
      ∀ k, coeff simKey listed final k =
        coeff simKey listed start k + (order.map fun reply => coeff simKey listed reply.2 k).sum := by
  induction order generalizing start with
  | nil => exact ⟨start, rfl, asc, fun k => (add_zero _).symm⟩
  | cons reply order ih =>
      obtain ⟨ascReply, some'⟩ := sent reply (List.mem_cons_self ..)
      obtain ⟨now, later⟩ := covered
      obtain ⟨merged, ran, adds⟩ := mergeThreadsResult_adds ascReply asc some' reply.1 now
      have stepped : mergeStep start reply = some merged := by rw [mergeStep, ran, Option.map_some]
      obtain ⟨final, done, ascFinal, value⟩ :=
        ih (fun other member => sent other (List.mem_cons_of_mem _ member))
          adds.canonical.ascending (later merged stepped)
      refine ⟨final, by rw [exec, stepped, Option.bind_some, done], ascFinal, fun k => ?_⟩
      rw [value, adds.coeff_eq, List.map_cons, List.sum_cons, add_assoc]

theorem allMerge_iff {order : List Reply} (sent : ∀ reply ∈ order, Sent reply)
    {start : List MergeSimilarInfo} (asc : Ascending simKey start) :
    AllMerge start order ↔ AllCovered start order := by
  induction order generalizing start with
  | nil => exact Iff.rfl
  | cons reply order ih =>
      obtain ⟨ascReply, some'⟩ := sent reply (List.mem_cons_self ..)
      have here := merges_iff ascReply asc some' reply.1
      have after : Covered reply.2 start → ∀ merged, mergeStep start reply = some merged →
          (AllMerge merged order ↔ AllCovered merged order) := by
        intro covered merged stepped
        obtain ⟨merged', ran, adds⟩ := mergeThreadsResult_adds ascReply asc some' reply.1 covered
        rw [mergeStep, ran, Option.map_some] at stepped
        obtain rfl := Option.some.inj stepped
        exact ih (fun other member => sent other (List.mem_cons_of_mem _ member))
          adds.canonical.ascending
      constructor
      · rintro ⟨now, later⟩
        exact ⟨here.mp now, fun merged stepped =>
          (after (here.mp now) merged stepped).mp (later merged stepped)⟩
      · rintro ⟨now, later⟩
        exact ⟨here.mpr now, fun merged stepped => (after now merged stepped).mpr (later merged stepped)⟩

/-- One list is the result of every order of the replies, and each merge on the way is proper. -/
def SameInAnyOrder (start : List MergeSimilarInfo) (replies : List (List MergeSimilarInfo)) : Prop :=
  ∃ final, ∀ order : List Reply, (order.map Prod.snd).Perm replies →
    AllMerge start order ∧ exec mergeStep start order = some final

theorem sent_of_perm {replies : List (List MergeSimilarInfo)}
    (sent : ∀ reply ∈ replies, Ascending simKey reply ∧ reply ≠ []) {order : List Reply}
    (perm : (order.map Prod.snd).Perm replies) : ∀ reply ∈ order, Sent reply :=
  fun reply member => sent reply.2 (perm.mem_iff.mp (List.mem_map_of_mem member))

theorem sameInAnyOrder_iff {start : List MergeSimilarInfo} {replies : List (List MergeSimilarInfo)}
    (asc : Ascending simKey start)
    (sent : ∀ reply ∈ replies, Ascending simKey reply ∧ reply ≠ []) :
    SameInAnyOrder start replies ↔
      ∀ order : List Reply, (order.map Prod.snd).Perm replies → AllCovered start order := by
  constructor
  · rintro ⟨final, all⟩ order perm
    exact (allMerge_iff (sent_of_perm sent perm) asc).mp (all order perm).1
  · intro covered
    -- the order of the list itself is one of the orders
    have some' : ((replies.map fun reply => ((0, reply) : Reply)).map Prod.snd).Perm replies := by
      rw [List.map_map]
      exact List.Perm.of_eq (List.map_id replies)
    obtain ⟨final, _, ascFinal, value⟩ := exec_covered (sent_of_perm sent some') asc (covered _ some')
    refine ⟨final, fun order perm => ⟨(allMerge_iff (sent_of_perm sent perm) asc).mpr
      (covered order perm), ?_⟩⟩
    obtain ⟨other, ran, ascOther, value'⟩ :=
      exec_covered (sent_of_perm sent perm) asc (covered order perm)
    have total : ∀ k (order : List Reply), (order.map Prod.snd).Perm replies →
        (order.map fun reply => coeff simKey listed reply.2 k).sum =
          (replies.map fun reply => coeff simKey listed reply k).sum := by
      intro k order perm
      have sums := (perm.map fun reply => coeff simKey listed reply k).sum_eq
      rwa [List.map_map] at sums
    rw [ran, Canonical.ext (fun v nonzero => nonzero) listed_ext (canonical_listed ascOther)
      (canonical_listed ascFinal) fun k => by
        rw [value, value', total k order perm, total k _ some']]

/-- A reply is merged without a read through `end()` exactly if the list is empty or reaches beyond
each of its pictures but the last; replies that are always merged so give one list in any order. -/
theorem mergeThreadsResult_iff_covered {result : List MergeSimilarInfo}
    (asc : Ascending simKey result) :
    (∀ (endPic : BitVec 64) (replies : List MergeSimilarInfo), Ascending simKey replies →
      replies ≠ [] → (Merges endPic replies result ↔ Covered replies result)) ∧
    ∀ replies : List (List MergeSimilarInfo),
      (∀ reply ∈ replies, Ascending simKey reply ∧ reply ≠ []) →
        (SameInAnyOrder result replies ↔
          ∀ order : List Reply, (order.map Prod.snd).Perm replies → AllCovered result order) :=
  ⟨fun endPic _ ascReplies some' => merges_iff ascReplies asc some' endPic,
    fun _ sent => sameInAnyOrder_iff asc sent⟩

/-- Replies with one picture each are covered by any list. -/
theorem allCovered_single {order : List Reply} (single : ∀ reply ∈ order, ∃ info, reply.2 = [info])
    (start : List MergeSimilarInfo) : AllCovered start order := by
  induction order generalizing start with
  | nil => exact trivial
  | cons reply order ih =>
      obtain ⟨info, one⟩ := single reply (List.mem_cons_self ..)
      refine ⟨Or.inr fun earlier earlierIn later laterIn less => ?_, fun merged _ =>
        ih (fun other member => single other (List.mem_cons_of_mem _ member)) merged⟩
      rw [one] at earlierIn laterIn
      rw [List.mem_singleton.mp earlierIn, List.mem_singleton.mp laterIn] at less
      exact absurd less (lt_irrefl _)

/-- A reply that ends beyond the list, and two replies in either order. -/
theorem mergeThreadsResult_between :
    Merges 0 [⟨1, 2, 3⟩, ⟨1, 2, 7⟩] [⟨1, 1, 3⟩, ⟨1, 1, 5⟩] ∧
      SameInAnyOrder [⟨1, 1, 5⟩] [[⟨1, 2, 5⟩], [⟨1, 2, 7⟩]] := by
  refine ⟨((mergeThreadsResult_iff_covered (by decide +kernel)).1 0 _ (by decide +kernel)
    (by decide)).mpr (by decide +kernel), ?_⟩
  refine ((mergeThreadsResult_iff_covered (by decide +kernel)).2 _ ?_).mpr ?_
  · intro reply member
    rcases List.mem_cons.mp member with rfl | other
    · exact ⟨List.pairwise_singleton .., List.cons_ne_nil _ _⟩
    · rw [List.mem_singleton.mp other]
      exact ⟨List.pairwise_singleton .., List.cons_ne_nil _ _⟩
  · intro order perm
    refine allCovered_single (fun reply member => ?_) _
    have one := perm.mem_iff.mp (List.mem_map_of_mem member)
    rcases List.mem_cons.mp one with first | other
    · exact ⟨_, first⟩
    · exact ⟨_, List.mem_singleton.mp other⟩

/-- After the picture that ends the list, the next one is compared with the memory behind the list;
with its own number there, it is lost in a write through `end()`. -/
theorem not_merges_beyond :
    (Ascending simKey [⟨1, 1, 5⟩, ⟨1, 1, 9⟩] ∧ Ascending simKey [⟨1, 1, 5⟩]) ∧
      readsEnd [⟨1, 1, 5⟩, ⟨1, 1, 9⟩] [⟨1, 1, 5⟩] = true ∧
      mergeThreadsResult 9 [⟨1, 1, 5⟩, ⟨1, 1, 9⟩] [⟨1, 1, 5⟩] = none ∧
      ∀ endPic, ¬ Merges endPic [⟨1, 1, 5⟩, ⟨1, 1, 9⟩] [⟨1, 1, 5⟩] := by
  have reads : readsEnd [⟨1, 1, 5⟩, ⟨1, 1, 9⟩] [⟨1, 1, 5⟩] = true := by decide +kernel
  refine ⟨⟨by decide +kernel, by decide +kernel⟩, reads, by decide +kernel, fun endPic merges => ?_⟩
  rw [Merges, reads] at merges
  exact absurd merges.1 (by decide)

end MlsImgSearch.Searchd.ThreadsResult
