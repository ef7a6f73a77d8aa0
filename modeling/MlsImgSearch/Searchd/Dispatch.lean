import MlsImgSearch.Searchd.DistributedMerge

/-!
# The words of a query and the ranges of the servers

`DispatchData` walks over the words and over the ranges at once: a word outside of
the current range moves the range, never the word. It is looked at here for ranges
with gaps and for all words.
-/

namespace MlsImgSearch.Searchd.Dispatch

open MlsImgSearch.Lib.SortedList
open MlsImgSearch.Searchd.DistributedMerge (IPAddress)

variable {α : Type*}

/-! ## The loop -/

structure MergeConf where
  beginId : Int
  endId : Int
  servers : List IPAddress

/-- A part of the words, with what was computed for them, and the servers it is for. -/
structure ServerToData (α : Type*) where
  servers : List IPAddress := []
  imgQdata : List (Int × α) := []

def MergeConf.contains (conf : MergeConf) (wordId : Int) : Bool :=
  decide (conf.beginId ≤ wordId) && decide (wordId ≤ conf.endId)

/-- The log line reads `servers_[0]`; `none` is a read behind the servers. -/
def pushPart (part : ServerToData α) (datas : List (ServerToData α)) :
    Option (List (ServerToData α)) :=
  if part.servers.length = 0 then none else some (datas ++ [part])

/-- The loop, with the ranges from `it_conf` on, the words from `it` on, the part at work and the
parts so far. `none` is also a read through the end of the ranges. -/
def dispatchLoop : List MergeConf → List (Int × α) → ServerToData α → List (ServerToData α) →
    Option (List (ServerToData α))
  | _, [], _, datas => some datas
  | [], _ :: _, _, _ => none
  | conf :: confs, word :: words, part, datas =>
      if conf.contains word.1 then
        let part : ServerToData α :=
          { servers := if part.servers.length = 0 then conf.servers else part.servers
            imgQdata := part.imgQdata ++ [word] }
        if words.length = 0 then
          (pushPart part datas).bind fun datas => dispatchLoop (conf :: confs) words {} datas
        else dispatchLoop (conf :: confs) words part datas
      else if 0 < part.imgQdata.length then
        (pushPart part datas).bind fun datas =>
          if confs.length = 0 then some datas else dispatchLoop confs (word :: words) {} datas
      else if confs.length = 0 then some datas
      else dispatchLoop confs (word :: words) part datas
  termination_by confs words => confs.length + words.length

/-- The result and `servers_to_datas_`. -/
def dispatchData (confs : List MergeConf) (imgQdata : List (Int × α)) :
    Option (Int × List (ServerToData α)) :=
  if imgQdata.length = 0 then some (-1, [])
  else (dispatchLoop confs imgQdata {} []).map fun datas => (0, datas)

/-! ## What is wanted -/

/-- Ranges in ascending order, which overlap at most in their end points. -/
structure Ranges (confs : List MergeConf) : Prop where
  ordered : ∀ c ∈ confs, c.beginId ≤ c.endId
  ascending : confs.Pairwise fun c d => c.endId ≤ d.beginId

def covered (confs : List MergeConf) (word : Int × α) : Bool :=
  confs.any fun c => c.contains word.1

/-- The parts are the words of the ranges, in their order, and each part is for the servers of a
range that contains its words. -/
structure Partition (confs : List MergeConf) (words : List (Int × α))
    (datas : List (ServerToData α)) : Prop where
  words : datas.flatMap ServerToData.imgQdata = words.filter (covered confs)
  nonempty : ∀ part ∈ datas, part.imgQdata ≠ []
  servers : ∀ part ∈ datas, ∀ word ∈ part.imgQdata,
    ∃ c ∈ confs, c.contains word.1 ∧ part.servers = c.servers

def Dispatches (confs : List MergeConf) (words : List (Int × α)) : Prop :=
  ∃ datas, dispatchData confs words = some (0, datas) ∧ Partition confs words datas

/-! ## The words before the first one that is left out -/

theorem takeWhile_congr {p q : α → Bool} {xs : List α} (same : ∀ x ∈ xs, p x = q x) :
    xs.takeWhile p = xs.takeWhile q := by
  induction xs with
  | nil => rfl
  | cons x xs ih =>
      rw [List.takeWhile_cons, List.takeWhile_cons, same x List.mem_cons_self,
        ih fun y member => same y (List.mem_cons_of_mem x member)]

/-- Nothing is lost behind the first element that does not fit, if none behind it fits. -/
theorem takeWhile_eq_filter_iff {p : α → Bool} {xs : List α} :
    xs.takeWhile p = xs.filter p ↔ xs.Pairwise fun x y => p y = true → p x = true := by
  induction xs with
  | nil => simp
  | cons x xs ih =>
      rw [List.pairwise_cons]
      by_cases fits : p x = true
      · rw [List.takeWhile_cons_of_pos fits, List.filter_cons_of_pos fits, List.cons_inj_right, ih]
        exact ⟨fun rest => ⟨fun _ _ _ => fits, rest⟩, And.right⟩
      · rw [List.takeWhile_cons_of_neg fits, List.filter_cons_of_neg fits]
        constructor
        · intro none'
          have noneFits := List.filter_eq_nil_iff.mp none'.symm
          refine ⟨fun y member fitsY => absurd fitsY (noneFits y member), ?_⟩
          exact List.Pairwise.imp_of_mem (fun _ member _ fitsY => absurd fitsY (noneFits _ member))
            (List.pairwise_of_forall fun _ _ => trivial)
        · rintro ⟨first, -⟩
          refine (List.filter_eq_nil_iff.mpr fun y member fitsY => ?_).symm
          exact fits (first y member fitsY)

/-! ## One range -/

section Range

variable {c : MergeConf} {confs : List MergeConf} {word : Int × α} {words : List (Int × α)}

theorem contains_iff {wordId : Int} :
    c.contains wordId = true ↔ c.beginId ≤ wordId ∧ wordId ≤ c.endId := by
  rw [MergeConf.contains, Bool.and_eq_true, decide_eq_true_iff, decide_eq_true_iff]

theorem covered_cons : covered (c :: confs) word = (c.contains word.1 || covered confs word) := rfl

theorem Ranges.tail (ranges : Ranges (c :: confs)) : Ranges confs :=
  ⟨fun d member => ranges.ordered d (List.mem_cons_of_mem c member),
    (List.pairwise_cons.mp ranges.ascending).2⟩

/-- A word of a later range that is not in the first one lies beyond it, with all words after it. -/
theorem beyond (ranges : Ranges (c :: confs)) (asc : Ascending Prod.fst (word :: words))
    (outside : ¬ c.contains word.1 = true) (later : covered confs word = true) :
    ∀ other ∈ word :: words, c.endId < other.1 := by
  obtain ⟨d, member, contained⟩ := List.any_eq_true.mp later
  have below := (List.pairwise_cons.mp ranges.ascending).1 d member
  have inside := (contains_iff.mp contained).1
  have first : c.endId < word.1 := by
    by_contra notBeyond
    have order := ranges.ordered c List.mem_cons_self
    exact outside (contains_iff.mpr ⟨by omega, by omega⟩)
  intro other otherMember
  rcases List.mem_cons.mp otherMember with rfl | after
  · exact first
  · exact lt_trans first ((List.pairwise_cons.mp asc).1 other after)

theorem not_contains_of_beyond (above : c.endId < word.1) : ¬ c.contains word.1 = true :=
  fun contained => absurd (contains_iff.mp contained).2 (not_le.mpr above)

/-- What is left is the same for the ranges behind the first one. -/
theorem takeWhile_next (ranges : Ranges (c :: confs)) (asc : Ascending Prod.fst (word :: words))
    (outside : ¬ c.contains word.1 = true) :
    (word :: words).takeWhile (covered (c :: confs)) =
      (word :: words).takeWhile (covered confs) := by
  by_cases later : covered confs word = true
  · have above := beyond ranges asc outside later
    refine takeWhile_congr fun other member => ?_
    rw [covered_cons, Bool.eq_false_iff.mpr (not_contains_of_beyond (above other member)),
      Bool.false_or]
  · have neither : ¬ covered (c :: confs) word = true := by
      rw [covered_cons, Bool.or_eq_true]
      exact not_or.mpr ⟨outside, later⟩
    rw [List.takeWhile_cons_of_neg neither, List.takeWhile_cons_of_neg later]

theorem find_next (ranges : Ranges (c :: confs)) (asc : Ascending Prod.fst (word :: words))
    (outside : ¬ c.contains word.1 = true) {other : Int × α}
    (member : other ∈ (word :: words).takeWhile (covered confs)) :
    (c :: confs).find? (fun d => d.contains other.1) =
      confs.find? fun d => d.contains other.1 := by
  have later : covered confs word = true := by
    by_contra none'
    rw [List.takeWhile_cons_of_neg none'] at member
    exact absurd member List.not_mem_nil
  have above := beyond ranges asc outside later other ((List.takeWhile_sublist _).mem member)
  exact List.find?_cons_of_neg (not_contains_of_beyond above)

end Range

/-! ## The loop -/

/-- The part at work is for the current range. -/
structure AtWork (confs : List MergeConf) (part : ServerToData α) : Prop where
  empty : part.imgQdata = [] → part.servers = []
  range : ∀ word ∈ part.imgQdata,
    ∃ c, confs.head? = some c ∧ c.contains word.1 = true ∧ part.servers = c.servers

/-- A part whose words have their first range in common. -/
structure Assigned (confs : List MergeConf) (part : ServerToData α) : Prop where
  nonempty : part.imgQdata ≠ []
  hasServer : part.servers ≠ []
  first : ∀ word ∈ part.imgQdata, ∃ c, confs.find? (fun d => d.contains word.1) = some c ∧
    part.servers = c.servers

theorem atWork_empty (confs : List MergeConf) : AtWork confs ({} : ServerToData α) :=
  ⟨fun _ => rfl, nofun⟩

theorem AtWork.assigned {confs : List MergeConf} {part : ServerToData α}
    (atWork : AtWork confs part) (nonempty : part.imgQdata ≠ []) (hasServer : part.servers ≠ []) :
    Assigned confs part := by
  refine ⟨nonempty, hasServer, fun word member => ?_⟩
  obtain ⟨c, current, contained, servers⟩ := atWork.range word member
  obtain ⟨rest, rfl⟩ := List.head?_eq_some_iff.mp current
  exact ⟨c, List.find?_cons_of_pos contained, servers⟩

theorem AtWork.add {c : MergeConf} {confs : List MergeConf} {part : ServerToData α}
    {word : Int × α} (atWork : AtWork (c :: confs) part) (inside : c.contains word.1 = true) :
    AtWork (c :: confs)
      { servers := if part.servers.length = 0 then c.servers else part.servers
        imgQdata := part.imgQdata ++ [word] } := by
  have servers : (if part.servers.length = 0 then c.servers else part.servers) = c.servers := by
    split
    · rfl
    · rename_i some'
      cases words : part.imgQdata with
      | nil => exact absurd (by rw [atWork.empty words]; rfl) some'
      | cons first rest =>
          obtain ⟨d, current, -, servers⟩ := atWork.range first (by rw [words]; simp)
          rw [servers, Option.some.inj current]
  refine ⟨fun none' => absurd none' (by simp), fun other member => ⟨c, rfl, ?_, servers⟩⟩
  rcases List.mem_append.mp member with old | new
  · obtain ⟨d, current, contained, -⟩ := atWork.range other old
    rwa [Option.some.inj current]
  · rwa [List.mem_singleton.mp new]

theorem pushPart_eq_some {part : ServerToData α} {datas pushed : List (ServerToData α)}
    (ran : pushPart part datas = some pushed) : part.servers ≠ [] ∧ pushed = datas ++ [part] := by
  unfold pushPart at ran
  split at ran
  · exact absurd ran (by simp)
  · rename_i some'
    exact ⟨fun none' => some' (by rw [none']; rfl), (Option.some.inj ran).symm⟩

/-- The words of the later parts have their first range behind the current one. -/
theorem assigned_next {c : MergeConf} {confs : List MergeConf} {word : Int × α}
    {words : List (Int × α)} {new : List (ServerToData α)} {p : ServerToData α}
    (ranges : Ranges (c :: confs)) (asc : Ascending Prod.fst (word :: words))
    (outside : ¬ c.contains word.1 = true)
    (flat : new.flatMap ServerToData.imgQdata = (word :: words).takeWhile (covered confs))
    (member : p ∈ new) (assigned : Assigned confs p) : Assigned (c :: confs) p := by
  refine ⟨assigned.nonempty, assigned.hasServer, fun other inside => ?_⟩
  have taken : other ∈ (word :: words).takeWhile (covered confs) := by
    rw [← flat]
    exact List.mem_flatMap.mpr ⟨p, member, inside⟩
  rw [find_next ranges asc outside taken]
  exact assigned.first other inside

/-- Whatever the loop produces, it are the words up to the first one that is in no range. -/
theorem dispatchLoop_spec {confs : List MergeConf} {words : List (Int × α)}
    {part : ServerToData α} {datas result : List (ServerToData α)} (ranges : Ranges confs)
    (asc : Ascending Prod.fst words) (atWork : AtWork confs part)
    (ended : words = [] → part.imgQdata = [])
    (ran : dispatchLoop confs words part datas = some result) :
    ∃ new, result = datas ++ new ∧
      new.flatMap ServerToData.imgQdata =
        part.imgQdata ++ words.takeWhile (covered confs) ∧
      ∀ p ∈ new, Assigned confs p := by
  fun_induction dispatchLoop confs words part datas with
  | case1 confs part datas =>
      obtain rfl := Option.some.inj ran
      exact ⟨[], (List.append_nil _).symm, by rw [ended rfl]; rfl, nofun⟩
  | case2 word words part datas => exact absurd ran (by simp)
  | case3 c confs word words part datas inside newPart last ih =>
      obtain rfl := List.eq_nil_of_length_eq_zero last
      obtain ⟨pushed, push, rest⟩ := Option.bind_eq_some_iff.mp ran
      obtain ⟨hasServer, rfl⟩ := pushPart_eq_some push
      rw [dispatchLoop] at rest
      obtain rfl := Option.some.inj rest
      have taken : covered (c :: confs) word = true := by rw [covered_cons, inside]; rfl
      refine ⟨[newPart], rfl, ?_, ?_⟩
      · rw [List.flatMap_singleton, List.takeWhile_cons_of_pos taken]
        rfl
      · intro p member
        rw [List.mem_singleton.mp member]
        exact (atWork.add inside).assigned (by simp) hasServer
  | case4 c confs word words part datas inside newPart more ih =>
      have taken : covered (c :: confs) word = true := by rw [covered_cons, inside]; rfl
      obtain ⟨new, joined, flat, assigned⟩ := ih ranges (List.pairwise_cons.mp asc).2
        (atWork.add inside) (fun none' => absurd (by rw [none']; rfl) more) ran
      refine ⟨new, joined, ?_, assigned⟩
      rw [flat, List.takeWhile_cons_of_pos taken, List.append_assoc]
      rfl
  | case5 c confs word words part datas outside some' ih =>
      obtain ⟨pushed, push, rest⟩ := Option.bind_eq_some_iff.mp ran
      obtain ⟨hasServer, rfl⟩ := pushPart_eq_some push
      have nonempty : part.imgQdata ≠ [] := List.ne_nil_of_length_pos some'
      have isPart := atWork.assigned nonempty hasServer
      obtain ⟨new, joined, flat, assigned⟩ : ∃ new, result = datas ++ [part] ++ new ∧
          new.flatMap ServerToData.imgQdata = (word :: words).takeWhile (covered confs) ∧
          ∀ p ∈ new, Assigned confs p := by
        split at rest
        · rename_i last
          obtain rfl := List.eq_nil_of_length_eq_zero last
          obtain rfl := Option.some.inj rest
          exact ⟨[], (List.append_nil _).symm, rfl, nofun⟩
        · rename_i more
          exact ih _ ranges.tail asc (atWork_empty confs) nofun rest
      refine ⟨part :: new, by rw [joined, List.append_assoc]; rfl, ?_, ?_⟩
      · rw [List.flatMap_cons, flat, takeWhile_next ranges asc outside]
      · exact List.forall_mem_cons.mpr ⟨isPart, fun p member =>
          assigned_next ranges asc outside flat member (assigned p member)⟩
  | case6 c confs word words part datas outside none' last =>
      obtain rfl := List.eq_nil_of_length_eq_zero last
      obtain rfl := Option.some.inj ran
      have empty := List.eq_nil_of_length_eq_zero (Nat.eq_zero_of_not_pos none')
      refine ⟨[], (List.append_nil _).symm, ?_, nofun⟩
      rw [takeWhile_next ranges asc outside, empty]
      rfl
  | case7 c confs word words part datas outside none' more ih =>
      have empty := List.eq_nil_of_length_eq_zero (Nat.eq_zero_of_not_pos none')
      have atWork' : AtWork confs part := ⟨atWork.empty, by rw [empty]; exact nofun⟩
      obtain ⟨new, joined, flat, assigned⟩ := ih ranges.tail asc atWork' nofun ran
      rw [empty, List.nil_append] at flat
      refine ⟨new, joined, ?_, fun p member =>
        assigned_next ranges asc outside flat member (assigned p member)⟩
      rw [flat, takeWhile_next ranges asc outside, empty]
      rfl

section Servers

variable {c : MergeConf} {confs : List MergeConf} {word : Int × α} {words : List (Int × α)}
  {part : ServerToData α}

theorem newPart_servers (atWork : AtWork (c :: confs) part) (inside : c.contains word.1 = true)
    (servers : ∀ other ∈ (word :: words).takeWhile (covered (c :: confs)), ∀ d,
      (c :: confs).find? (fun d => d.contains other.1) = some d → d.servers ≠ []) :
    (if part.servers.length = 0 then c.servers else part.servers) ≠ [] := by
  have taken : covered (c :: confs) word = true := by rw [covered_cons, inside]; rfl
  obtain ⟨d, current, -, same⟩ := (atWork.add inside).range word (by simp)
  obtain rfl := Option.some.inj current
  have same' : (if part.servers.length = 0 then c.servers else part.servers) = c.servers := same
  rw [same']
  refine servers word ?_ c (List.find?_cons_of_pos inside)
  rw [List.takeWhile_cons_of_pos taken]
  exact List.mem_cons_self

theorem servers_next (ranges : Ranges (c :: confs)) (asc : Ascending Prod.fst (word :: words))
    (outside : ¬ c.contains word.1 = true)
    (servers : ∀ other ∈ (word :: words).takeWhile (covered (c :: confs)), ∀ d,
      (c :: confs).find? (fun d => d.contains other.1) = some d → d.servers ≠ []) :
    ∀ other ∈ (word :: words).takeWhile (covered confs), ∀ d,
      confs.find? (fun d => d.contains other.1) = some d → d.servers ≠ [] := by
  intro other member d found
  refine servers other ?_ d ?_
  · rwa [takeWhile_next ranges asc outside]
  · rwa [find_next ranges asc outside member]

end Servers

/-- The loop comes to its end if the ranges that get words have servers. -/
theorem dispatchLoop_isSome {confs : List MergeConf} {words : List (Int × α)}
    {part : ServerToData α} {datas : List (ServerToData α)} (ranges : Ranges confs)
    (asc : Ascending Prod.fst words) (configured : confs ≠ []) (atWork : AtWork confs part)
    (partServers : part.imgQdata ≠ [] → part.servers ≠ [])
    (servers : ∀ word ∈ words.takeWhile (covered confs), ∀ c,
      confs.find? (fun d => d.contains word.1) = some c → c.servers ≠ []) :
    ∃ result, dispatchLoop confs words part datas = some result := by
  fun_induction dispatchLoop confs words part datas with
  | case1 confs part datas => exact ⟨datas, rfl⟩
  | case2 word words part datas => exact absurd rfl configured
  | case3 c confs word words part datas inside newPart last ih =>
      obtain rfl := List.eq_nil_of_length_eq_zero last
      have hasServer : newPart.servers ≠ [] := newPart_servers atWork inside servers
      rw [pushPart, if_neg (fun none' => hasServer (List.eq_nil_of_length_eq_zero none')),
        Option.bind_some, dispatchLoop]
      exact ⟨_, rfl⟩
  | case4 c confs word words part datas inside newPart more ih =>
      have taken : covered (c :: confs) word = true := by rw [covered_cons, inside]; rfl
      refine ih ranges (List.pairwise_cons.mp asc).2 configured (atWork.add inside)
        (fun _ => newPart_servers atWork inside servers) fun other member => ?_
      refine servers other ?_
      rw [List.takeWhile_cons_of_pos taken]
      exact List.mem_cons_of_mem word member
  | case5 c confs word words part datas outside some' ih =>
      have hasServer := partServers (List.ne_nil_of_length_pos some')
      rw [pushPart, if_neg (fun none' => hasServer (List.eq_nil_of_length_eq_zero none')),
        Option.bind_some]
      split
      · exact ⟨_, rfl⟩
      · rename_i more
        exact ih _ ranges.tail asc (fun none' => more (by rw [none']; rfl)) (atWork_empty confs)
          (fun some' => absurd rfl some') (servers_next ranges asc outside servers)
  | case6 c confs word words part datas outside none' last => exact ⟨_, rfl⟩
  | case7 c confs word words part datas outside none' more ih =>
      have empty := List.eq_nil_of_length_eq_zero (Nat.eq_zero_of_not_pos none')
      have atWork' : AtWork confs part := ⟨atWork.empty, by rw [empty]; exact nofun⟩
      exact ih ranges.tail asc (fun none' => more (by rw [none']; rfl)) atWork' partServers
        (servers_next ranges asc outside servers)

/-! ## The dispatch -/

/-- The dispatch is a partition exactly if no word without a range stands before a word with one,
and the ranges that get words have servers. -/
theorem dispatches_iff {confs : List MergeConf} {words : List (Int × α)} (ranges : Ranges confs)
    (asc : Ascending Prod.fst words) (some' : words ≠ []) :
    Dispatches confs words ↔ confs ≠ [] ∧
      (words.Pairwise fun word later =>
        covered confs later = true → covered confs word = true) ∧
      ∀ word ∈ words, ∀ c, confs.find? (fun d => d.contains word.1) = some c →
        c.servers ≠ [] := by
  have notEmpty : ¬ words.length = 0 := fun none' => some' (List.eq_nil_of_length_eq_zero none')
  have mem_of_find : ∀ word ∈ words, ∀ c, confs.find? (fun d => d.contains word.1) = some c →
      word ∈ words.filter (covered confs) := by
    intro word member c found
    have contained := List.find?_some found
    exact List.mem_filter.mpr
      ⟨member, List.any_eq_true.mpr ⟨c, List.mem_of_find?_eq_some found, contained⟩⟩
  constructor
  · rintro ⟨datas, ran, partition⟩
    rw [dispatchData, if_neg notEmpty] at ran
    obtain ⟨result, looped, same⟩ := Option.map_eq_some_iff.mp ran
    obtain rfl : result = datas := (Prod.mk.inj same).2
    have configured : confs ≠ [] := by
      rintro rfl
      obtain ⟨word, rest, rfl⟩ := List.exists_cons_of_ne_nil some'
      rw [dispatchLoop] at looped
      exact absurd looped (by simp)
    obtain ⟨new, isNew, flat, assigned⟩ := dispatchLoop_spec ranges asc (atWork_empty confs)
      (fun _ => rfl) looped
    rw [List.nil_append] at flat isNew
    have words' := partition.words
    rw [isNew] at words'
    refine ⟨configured, takeWhile_eq_filter_iff.mp (flat.symm.trans words'), ?_⟩
    intro word member c found
    have kept := mem_of_find word member c found
    rw [← words'] at kept
    obtain ⟨p, isPart, inPart⟩ := List.mem_flatMap.mp kept
    obtain ⟨d, found', servers⟩ := (assigned p isPart).first word inPart
    rw [found] at found'
    rw [Option.some.inj found', ← servers]
    exact (assigned p isPart).hasServer
  · rintro ⟨configured, ordered, servers⟩
    obtain ⟨result, looped⟩ : ∃ result, dispatchLoop confs words {} [] = some result :=
      dispatchLoop_isSome ranges asc configured (atWork_empty confs)
        (fun some' => absurd rfl some')
        (fun word member => servers word ((List.takeWhile_sublist _).mem member))
    obtain ⟨new, isNew, flat, assigned⟩ := dispatchLoop_spec ranges asc (atWork_empty confs)
      (fun _ => rfl) looped
    rw [List.nil_append] at flat isNew
    rw [isNew] at looped
    refine ⟨new, by rw [dispatchData, if_neg notEmpty, looped]; rfl, ?_, ?_, ?_⟩
    · exact flat.trans (takeWhile_eq_filter_iff.mpr ordered)
    · exact fun p member => (assigned p member).nonempty
    · intro p member word inside
      obtain ⟨c, found, same⟩ := (assigned p member).first word inside
      have contained := List.find?_some found
      exact ⟨c, List.mem_of_find?_eq_some found, contained, same⟩

def twoRanges : List MergeConf :=
  [⟨0, 10, [⟨"127.0.0.1", 7890⟩]⟩, ⟨20, 30, [⟨"127.0.0.1", 7980⟩]⟩]

theorem dispatches_iff_twoRanges :
    Dispatches twoRanges [(0, 'a'), (10, 'b'), (20, 'c'), (31, 'd')] ∧
      ¬ Dispatches twoRanges [(-5, 'a'), (10, 'b')] := by
  have ranges : Ranges twoRanges := ⟨by decide, by decide⟩
  exact ⟨(dispatches_iff ranges (by decide) (by decide)).mpr (by decide +kernel),
    fun dispatched => absurd ((dispatches_iff ranges (by decide) (by decide)).mp dispatched)
      (by decide +kernel)⟩

/-- A word between two ranges: the words behind it are left out. -/
theorem words_of_range_lost :
    ¬ ∀ (confs : List MergeConf) (words : List (Int × Char)), Ranges confs →
      Ascending Prod.fst words → words ≠ [] → Dispatches confs words := by
  intro all
  obtain ⟨datas, ran, partition⟩ := all twoRanges [(15, 'a'), (20, 'b')] ⟨by decide, by decide⟩
    (by decide) (by decide)
  have empty : dispatchData twoRanges [(15, 'a'), (20, 'b')] = some (0, []) := by
    simp [dispatchData, dispatchLoop, twoRanges, MergeConf.contains]
  rw [empty] at ran
  obtain rfl : [] = datas := (Prod.mk.inj (Option.some.inj ran)).2
  exact absurd partition.words (by decide)

end MlsImgSearch.Searchd.Dispatch
