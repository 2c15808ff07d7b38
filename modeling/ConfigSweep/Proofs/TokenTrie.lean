import ConfigSweep.TokenTrie
import ConfigSweep.Proofs.Table
import Mathlib.Data.List.Infix

/-!
# What a trie counts

The node that a run of tokens leads to counts the lists that begin with the run. Going down a list
until a node counts one therefore finds the shortest beginning that no other list shares.
-/

namespace ConfigSweep.TokenTrie

/-- The count of the node that a run leads to. -/
def passing : List String → TokenTrie → Nat
  | [], trie => trie.count
  | token :: rest, trie => passing rest (trie.childAt token)

theorem childAt_empty (token : String) : empty.childAt token = empty := rfl

theorem passing_empty (run : List String) : empty.passing run = 0 := by
  induction run with
  | nil => rfl
  | cons token rest ih => rw [passing, childAt_empty, ih]

theorem childAt_add (token probe : String) (rest : List String) (trie : TokenTrie) :
    (trie.add (token :: rest)).childAt probe =
      if probe = token then
        let child := trie.childAt token
        add rest { child with count := child.count + 1 }
      else trie.childAt probe := by
  unfold childAt
  rw [add, Table.get?_insert]
  split <;> rfl

/-- A list is not counted at the root. -/
theorem count_add (tokens : List String) (trie : TokenTrie) :
    (trie.add tokens).count = trie.count := by
  cases tokens <;> rfl

/-- A list passes through the nodes of its beginnings. -/
theorem passing_add (tokens : List String) {run : List String} (filled : run ≠ [])
    (trie : TokenTrie) :
    (trie.add tokens).passing run = trie.passing run + (run.isPrefixOf tokens).toNat := by
  induction tokens generalizing run trie with
  | nil =>
    obtain ⟨probe, more, rfl⟩ := List.exists_cons_of_ne_nil filled
    rfl
  | cons token rest ih =>
    obtain ⟨probe, more, rfl⟩ := List.exists_cons_of_ne_nil filled
    rw [passing, passing, childAt_add, List.isPrefixOf_cons_cons]
    by_cases here : probe = token
    · subst here
      rw [if_pos rfl, beq_self_eq_true, Bool.true_and]
      dsimp only
      cases more with
      | nil => exact count_add rest _
      | cons next more => exact ih (List.cons_ne_nil next more) _
    · rw [if_neg here, beq_false_of_ne here, Bool.false_and]
      rfl

/-- As many lists pass where a run leads as begin with the run. -/
theorem passing_ofLists (lists : List (List String)) {run : List String} (filled : run ≠ []) :
    (ofLists lists).passing run = lists.countP (run.isPrefixOf ·) := by
  have counted : ∀ (lists : List (List String)) (trie : TokenTrie),
      (lists.foldl (fun trie tokens => trie.add tokens) trie).passing run
        = trie.passing run + lists.countP (run.isPrefixOf ·) := by
    intro lists
    induction lists with
    | nil => intro trie; rfl
    | cons tokens rest ih =>
      intro trie
      rw [List.foldl_cons, ih, passing_add tokens filled, List.countP_cons]
      cases run.isPrefixOf tokens <;> simp [Nat.add_assoc, Nat.add_comm]
  rw [ofLists, counted, passing_empty, Nat.zero_add]

/-- The beginning of the tokens at which the way down a trie ends: the first that one list passes,
or all tokens. -/
structure EndsAt (trie : TokenTrie) (tokens run : List String) : Prop where
  begins : run <+: tokens
  filled : run ≠ []
  passed : ∀ shorter, shorter ≠ [] → shorter <+: run → shorter ≠ run → trie.passing shorter ≠ 1
  ends : trie.passing run = 1 ∨ run = tokens

section Descent

variable {trie : TokenTrie} {token : String} {rest : List String}

/-- A single token is as short as a run can be. -/
theorem endsAt_first (ends : trie.passing [token] = 1 ∨ rest = []) :
    trie.EndsAt (token :: rest) [token] where
  begins := List.cons_prefix_cons.mpr ⟨rfl, List.nil_prefix⟩
  filled := List.cons_ne_nil _ _
  passed := by
    intro shorter filled begins different
    obtain ⟨probe, more, rfl⟩ := List.exists_cons_of_ne_nil filled
    obtain ⟨rfl, none⟩ := List.cons_prefix_cons.mp begins
    rw [List.prefix_nil.mp none] at different
    exact absurd rfl different
  ends := ends.imp_right fun last => by rw [last]

/-- Behind a node that several lists pass, the way goes on below it. -/
theorem EndsAt.cons {run : List String} (shared : (trie.childAt token).count ≠ 1)
    (below : (trie.childAt token).EndsAt rest run) : trie.EndsAt (token :: rest) (token :: run) where
  begins := List.cons_prefix_cons.mpr ⟨rfl, below.begins⟩
  filled := List.cons_ne_nil _ _
  passed := by
    intro shorter filled begins different
    obtain ⟨probe, more, rfl⟩ := List.exists_cons_of_ne_nil filled
    obtain ⟨rfl, within⟩ := List.cons_prefix_cons.mp begins
    rw [passing]
    by_cases last : more = []
    · rw [last]
      exact shared
    · exact below.passed more last within fun same => different (by rw [same])
  ends := below.ends.imp_right fun all => by rw [all]

end Descent

/-- The way down a trie for a list that it has taken in ends where it should. -/
theorem unsharedRun_endsAt {tokens : List String} (filled : tokens ≠ []) {trie : TokenTrie}
    (inside : ∀ run, run ≠ [] → run <+: tokens → trie.passing run ≠ 0) :
    trie.EndsAt tokens (trie.unsharedRun tokens) := by
  induction tokens generalizing trie with
  | nil => exact absurd rfl filled
  | cons token rest ih =>
    have there := inside [token] (List.cons_ne_nil _ _) (List.cons_prefix_cons.mpr ⟨rfl, List.nil_prefix⟩)
    rw [unsharedRun]
    cases found : trie.children.get? token with
    | none => exact absurd (by rw [passing, childAt, found]; rfl) there
    | some child =>
      have below : trie.childAt token = child := by rw [childAt, found, Option.getD_some]
      dsimp only
      split
      · next single => exact endsAt_first (.inl (by rw [passing, below]; exact single))
      · next shared =>
        cases rest with
        | nil => exact endsAt_first (.inr rfl)
        | cons next more =>
          refine .cons (by rwa [below]) ?_
          rw [below]
          refine ih (List.cons_ne_nil _ _) fun run some begins => ?_
          have passed := inside (token :: run) (List.cons_ne_nil _ _)
            (List.cons_prefix_cons.mpr ⟨rfl, begins⟩)
          rwa [passing, below] at passed

end ConfigSweep.TokenTrie
