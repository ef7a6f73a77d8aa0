import Mathlib.Algebra.Order.Ring.Int
import Mathlib.Data.List.Basic
import Mathlib.Data.List.Infix
import Mathlib.Tactic.Common

/-!
# Searching a text in memory of known length

`strstr` stops at a match or at a zero byte. The memory it is called on holds only
so many known bytes; a search that needs a byte behind them has no result.
-/

namespace MlsImgSearch.Lib.TextSearch

/-- What a search over known bytes comes to. -/
inductive Search where
  | found (position : Nat)
  | absent
  | outside
  deriving DecidableEq

def Search.next : Search → Search
  | .found position => .found (position + 1)
  | .absent => .absent
  | .outside => .outside

/-- Compare byte by byte; `none` when the known bytes end before the answer is clear. -/
def startsWith : List UInt8 → List UInt8 → Option Bool
  | [], _ => some true
  | _ :: _, [] => none
  | n :: needle, c :: text => if n = c then startsWith needle text else some false

/-- `strstr` for a needle that is not empty. -/
def strstr (needle : List UInt8) : List UInt8 → Search
  | [] => .outside
  | c :: text =>
      match startsWith needle (c :: text) with
      | none => .outside
      | some true => .found 0
      | some false => if c = 0 then .absent else (strstr needle text).next

theorem startsWith_append {needle text : List UInt8} {answer : Bool} (more : List UInt8)
    (known : startsWith needle text = some answer) :
    startsWith needle (text ++ more) = some answer := by
  induction needle generalizing text with
  | nil => simpa [startsWith] using known
  | cons n needle ih =>
      cases text with
      | nil => cases known
      | cons c text =>
          rw [List.cons_append, startsWith]
          rw [startsWith] at known
          split at known
          · next same => rw [if_pos same, ih known]
          · next differ => rw [if_neg differ, known]

theorem startsWith_eq_true {needle text : List UInt8} :
    startsWith needle text = some true ↔ needle <+: text := by
  induction needle generalizing text with
  | nil => simp [startsWith]
  | cons n needle ih =>
      cases text with
      | nil => simp [startsWith]
      | cons c text =>
          rw [startsWith, List.cons_prefix_cons, ← ih]
          by_cases same : n = c <;> simp [same]

/-- Enough known bytes give an answer. -/
theorem startsWith_ne_none {needle text : List UInt8} (enough : needle.length ≤ text.length) :
    startsWith needle text ≠ none := by
  induction needle generalizing text with
  | nil => simp [startsWith]
  | cons n needle ih =>
      cases text with
      | nil => cases enough
      | cons c text =>
          rw [startsWith]
          split
          · exact ih (Nat.le_of_succ_le_succ enough)
          · simp

/-- An answer stays when more bytes become known. -/
theorem strstr_append {needle text : List UInt8} (more : List UInt8)
    (known : strstr needle text ≠ .outside) : strstr needle (text ++ more) = strstr needle text := by
  induction text with
  | nil => exact absurd rfl known
  | cons c text ih =>
      rw [List.cons_append, strstr, strstr]
      rw [strstr] at known
      cases compare : startsWith needle (c :: text) with
      | none => rw [compare] at known; exact absurd rfl known
      | some answer =>
          have kept := startsWith_append more compare
          rw [List.cons_append] at kept
          rw [compare] at known
          rw [kept]
          cases answer with
          | true => rfl
          | false =>
              by_cases zero : c = 0
              · simp [zero]
              · have later : strstr needle text ≠ .outside := by
                  intro outside
                  apply known
                  simp [zero, outside, Search.next]
                simp [zero, ih later]

/-- A byte that the needle lacks keeps a match from running over it. -/
theorem prefix_of_prefix_append_cons {needle back : List UInt8} {sep : UInt8}
    (front : List UInt8) (lacks : sep ∉ needle) (starts : needle <+: front ++ sep :: back) :
    needle <+: front := by
  induction needle generalizing front with
  | nil => exact List.nil_prefix
  | cons n needle ih =>
      cases front with
      | nil =>
          obtain ⟨same, -⟩ := List.cons_prefix_cons.mp starts
          exact absurd (List.mem_cons.mpr (Or.inl same.symm)) lacks
      | cons c front =>
          obtain ⟨same, later⟩ := List.cons_prefix_cons.mp starts
          have lacks' : sep ∉ needle := fun member => lacks (List.mem_cons_of_mem _ member)
          exact List.cons_prefix_cons.mpr ⟨same, ih front lacks' later⟩

theorem infix_append_cons_iff {needle front back : List UInt8} {sep : UInt8} (some' : needle ≠ [])
    (lacks : sep ∉ needle) :
    needle <:+: front ++ sep :: back ↔ needle <:+: front ∨ needle <:+: back := by
  induction front with
  | nil =>
      rw [List.nil_append, List.infix_cons_iff, List.infix_nil]
      have start : ¬ needle <+: sep :: back := fun starts =>
        some' (List.prefix_nil.mp (prefix_of_prefix_append_cons [] lacks starts))
      simp [start, some']
  | cons c front ih =>
      rw [List.cons_append, List.infix_cons_iff, ih, List.infix_cons_iff, or_assoc]
      have start : needle <+: c :: (front ++ sep :: back) ↔ needle <+: c :: front :=
        ⟨fun starts => prefix_of_prefix_append_cons (c :: front) lacks starts,
          fun starts => starts.trans (List.prefix_append _ _)⟩
      rw [start]

/-- The search finds a match behind a front that ends with a byte which the needle lacks, unless a
zero or an earlier match stops it. -/
theorem strstr_found_iff {needle : List UInt8} {sep : UInt8} (front back : List UInt8)
    (some' : needle ≠ []) (lacks : sep ∉ needle) :
    strstr needle (front ++ sep :: (needle ++ back)) = .found (front.length + 1) ↔
      (0 ∉ front ∧ sep ≠ 0) ∧ ¬ needle <:+: front := by
  have long : ∀ text : List UInt8, startsWith needle (text ++ sep :: (needle ++ back)) ≠ none :=
    fun text => startsWith_ne_none (by
      simp only [List.length_append, List.length_cons]
      omega)
  induction front with
  | nil =>
      have start : startsWith needle (sep :: (needle ++ back)) = some false := by
        cases answer : startsWith needle (sep :: (needle ++ back)) with
        | none => exact absurd answer (long [])
        | some result =>
            cases result with
            | false => rfl
            | true =>
                have nothing := prefix_of_prefix_append_cons [] lacks
                  (startsWith_eq_true.mp answer)
                exact absurd (List.prefix_nil.mp nothing) some'
      have here : strstr needle (needle ++ back) = .found 0 := by
        cases needle with
        | nil => exact absurd rfl some'
        | cons n needle =>
            have starts : startsWith (n :: needle) (n :: (needle ++ back)) = some true :=
              startsWith_eq_true.mpr (List.prefix_append (n :: needle) back)
            rw [List.cons_append, strstr, starts]
      rw [List.nil_append, strstr, start, here]
      by_cases zero : sep = 0 <;> simp [zero, Search.next, some']
  | cons c front ih =>
      have inside : needle <+: c :: (front ++ sep :: (needle ++ back)) ↔ needle <+: c :: front :=
        ⟨fun starts => prefix_of_prefix_append_cons (c :: front) lacks starts,
          fun starts => starts.trans (List.prefix_append _ _)⟩
      rw [List.cons_append, strstr, List.infix_cons_iff]
      cases answer : startsWith needle (c :: (front ++ sep :: (needle ++ back))) with
      | none => exact absurd answer (long (c :: front))
      | some result =>
          cases result with
          | true =>
              have starts := inside.mp (startsWith_eq_true.mp answer)
              simp [starts]
          | false =>
              have differs : ¬ needle <+: c :: front := fun starts => by
                have yes := startsWith_eq_true.mpr (inside.mpr starts)
                rw [answer] at yes
                cases yes
              have shift : ∀ search : Search, search.next = .found (front.length + 1 + 1) ↔
                  search = .found (front.length + 1) := by
                intro search
                cases search <;> simp [Search.next]
              by_cases zero : c = 0
              · simp [zero]
              · have other : ¬ 0 = c := fun same => zero same.symm
                rw [List.length_cons]
                simp only [if_neg zero, shift, ih]
                simp [differs, other]

/-- In a text without a zero the search finds a match, or runs over the known bytes. -/
theorem strstr_nonzero {needle text : List UInt8} (nonzero : 0 ∉ text) (some' : needle ≠ []) :
    (needle <:+: text ∧ ∃ position, strstr needle text = .found position) ∨
      (¬ needle <:+: text ∧ strstr needle text = .outside) := by
  induction text with
  | nil => exact Or.inr ⟨fun inside => some' (List.infix_nil.mp inside), rfl⟩
  | cons c text ih =>
      obtain ⟨notZero, nonzero'⟩ := List.ne_and_not_mem_of_not_mem_cons nonzero
      rw [strstr, List.infix_cons_iff]
      cases answer : startsWith needle (c :: text) with
      | none =>
          refine Or.inr ⟨?_, rfl⟩
          rintro (starts | inside)
          · rw [startsWith_eq_true.mpr starts] at answer
            cases answer
          · exact startsWith_ne_none (Nat.le_trans inside.length_le (Nat.le_succ _)) answer
      | some result =>
          cases result with
          | true => exact Or.inl ⟨Or.inl (startsWith_eq_true.mp answer), 0, rfl⟩
          | false =>
              have differs : ¬ needle <+: c :: text := fun starts => by
                rw [startsWith_eq_true.mpr starts] at answer
                cases answer
              simp only [if_neg (Ne.symm notZero)]
              rcases ih nonzero' with ⟨inside, position, found⟩ | ⟨missing, outside⟩
              · exact Or.inl ⟨Or.inr inside, position + 1, by rw [found]; rfl⟩
              · exact Or.inr ⟨fun inside => inside.elim differs missing, by rw [outside]; rfl⟩

/-- A match lies inside the known bytes. -/
theorem le_length_of_strstr {needle text : List UInt8} {position : Nat}
    (found : strstr needle text = .found position) :
    position + needle.length ≤ text.length := by
  induction text generalizing position with
  | nil => cases found
  | cons c text ih =>
      rw [strstr] at found
      cases compare : startsWith needle (c :: text) with
      | none => rw [compare] at found; cases found
      | some result =>
          rw [compare] at found
          cases result with
          | true =>
              cases found
              rw [Nat.zero_add]
              exact (startsWith_eq_true.mp compare).length_le
          | false =>
              by_cases zero : c = 0
              · simp [zero] at found
              · simp only [if_neg zero] at found
                cases later : strstr needle text with
                | outside => rw [later] at found; cases found
                | absent => rw [later] at found; cases found
                | found earlier =>
                    rw [later] at found
                    cases found
                    have bound := ih later
                    rw [List.length_cons]
                    omega

end MlsImgSearch.Lib.TextSearch
