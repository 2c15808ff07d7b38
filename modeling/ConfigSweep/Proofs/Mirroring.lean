import ConfigSweep.Proofs.Operations
import ConfigSweep.Proofs.ViewMerge

/-!
# Merges that mirror each other

Of two operations the second mirrors the first when it succeeds wherever the first does, on nodes
that are related, and leaves related nodes. The steps of a merge mirror each other when what they
look at is related, and so do merges that are composed of such steps.
-/

namespace ConfigSweep.Merge

open Outcome

/-- The roots were changed by putting related nodes into their focus. -/
def PutAlike (after : Tree → Tree → Prop) (path : Path) (root root' r r' : Tree) : Prop :=
  ∃ u u', Tree.replace? u path root = some r ∧ Tree.replace? u' path root' = some r' ∧ after u u'

/-- What the first operation makes of a node, the second makes of a related node, up to a relation. -/
def Mirrors (before : Tree → Tree → Prop) (op op' : Focus → Tree → Outcome Tree)
    (after : Tree → Tree → Prop) : Prop :=
  ∀ (focus : Focus) {root root' t t' : Tree}, root.get? focus.path = some t →
    root'.get? focus.path = some t' → before t t' →
      (op focus root).Follows (PutAlike after focus.path root root') (op' focus root')

/-- The operation does the same to nodes that are related. -/
abbrev Respects (before : Tree → Tree → Prop) (op : Focus → Tree → Outcome Tree)
    (after : Tree → Tree → Prop) : Prop :=
  Mirrors before op op after

namespace Mirrors

variable {before middle after : Tree → Tree → Prop} {op op' next next' : Focus → Tree → Outcome Tree}

theorem ok : Respects after (fun _ root => .ok root) after := by
  intro focus root root' t t' there there' alike
  exact .ok ⟨t, t', Tree.replace?_self there, Tree.replace?_self there', alike⟩

theorem fail (cause : Cause) : Mirrors before (fun _ _ => ConfigSweep.fail cause) op' after := by
  intro focus root root' t t' there there' alike
  exact .fail cause _

theorem write {value value' : Tree} (alike : after value value') :
    Mirrors before (fun focus root => focus.write value root)
      (fun focus root => focus.write value' root) after := by
  intro focus root root' t t' there there' _ r done
  obtain ⟨r', replaced⟩ := Tree.exists_replace? there' value'
  exact ⟨r', Focus.write_eq_ok.mpr replaced, value, value', Focus.write_eq_ok.mp done, replaced, alike⟩

theorem bind (first : Mirrors before op op' middle) (second : Mirrors middle next next' after) :
    Mirrors before (fun focus root => op focus root >>= next focus)
      (fun focus root => op' focus root >>= next' focus) after := by
  intro focus root root' t t' there there' alike
  refine (first focus there there' alike).bind fun s s' halfway r done => ?_
  obtain ⟨u, u', replaced, replaced', alike⟩ := halfway
  obtain ⟨r', done', v, v', put, put', alike⟩ :=
    second focus (Tree.get?_replace? replaced) (Tree.get?_replace? replaced') alike r done
  rw [Tree.replace?_replace? replaced] at put
  rw [Tree.replace?_replace? replaced'] at put'
  exact ⟨r', done', v, v', put, put', alike⟩

/-- What does not look at the tree is done before, with the same result on both sides. -/
theorem given {α : Type} {outcome : Outcome α} {next next' : α → Focus → Tree → Outcome Tree}
    (each : ∀ a, outcome = .ok a → Mirrors before (next a) (next' a) after) :
    Mirrors before (fun focus root => outcome >>= fun a => next a focus root)
      (fun focus root => outcome >>= fun a => next' a focus root) after := by
  intro focus root root' t t' there there' alike r done
  obtain ⟨a, yields, done⟩ := bind_eq_ok.mp done
  obtain ⟨r', done', put⟩ := each a yields focus there there' alike r done
  exact ⟨r', bind_eq_ok.mpr ⟨a, yields, done'⟩, put⟩

/-- What is done at children that a step leads to is done at the nodes. -/
theorem child (mirrors : Mirrors before op op' middle) (attached : Attached op) {step : Step}
    {down : Focus → Focus} (below : ∀ focus, (down focus).path = focus.path ++ [step])
    {whole whole' : Tree → Tree → Prop}
    (toChild : ∀ t t' c, whole t t' → t.child? step = some c →
      ∃ c', t'.child? step = some c' ∧ before c c' ∧
        ∀ v v', middle v v' → whole' (t.setChild step v) (t'.setChild step v')) :
    Mirrors whole (fun focus root => op (down focus) root) (fun focus root => op' (down focus) root)
      whole' := by
  intro focus root root' t t' there there' alike r done
  obtain ⟨c, found⟩ := attached (down focus) root r done
  have onward : t.child? step = some c := by
    rwa [below, Tree.get?_concat, there] at found
  obtain ⟨c', onward', alike', back⟩ := toChild t t' c alike onward
  have found' : root'.get? (down focus).path = some c' := by
    rw [below, Tree.get?_concat, there']
    exact onward'
  obtain ⟨r', done', v, v', put, put', promised⟩ := mirrors (down focus) found found' alike' r done
  rw [below, Tree.replace?_concat there onward] at put
  rw [below, Tree.replace?_concat there' onward'] at put'
  exact ⟨r', done', _, _, put, put', back v v' promised⟩

/-- Nodes are revealed together, and what is done then may look at the revealed nodes. -/
theorem revealed {next next' : Focus → Tree × Tree → Outcome Tree}
    (shows : ∀ t t' shown, before t t' → t.reveal = .ok shown →
      ∃ shown', t'.reveal = .ok shown' ∧ middle shown shown')
    (each : ∀ shown shown', middle shown shown' → Mirrors middle
      (fun focus root => next focus (shown, root)) (fun focus root => next' focus (shown', root)) after) :
    Mirrors before (fun focus root => focus.revealed root >>= next focus)
      (fun focus root => focus.revealed root >>= next' focus) after := by
  intro focus root root' t t' there there' alike r done
  unfold Focus.revealed at done ⊢
  simp only [bind_assoc, pure_bind] at done ⊢
  obtain ⟨_, reads, done⟩ := bind_eq_ok.mp done
  obtain rfl := Option.some.inj (there.symm.trans (Focus.read_eq_ok.mp reads))
  obtain ⟨shown, reveals, done⟩ := bind_eq_ok.mp done
  obtain ⟨shown', reveals', alike'⟩ := shows t t' shown alike (Stopped.outcome_eq_ok.mp reveals)
  obtain ⟨r', done', put⟩ :=
    (write alike').bind (each shown shown' alike') focus there there' alike r done
  refine ⟨r', bind_eq_ok.mpr ⟨t', Focus.read_eq_ok.mpr there', ?_⟩, put⟩
  exact bind_eq_ok.mpr ⟨shown', Stopped.outcome_eq_ok.mpr reveals', done'⟩

/-- Settled nodes are related when revealing relates the nodes before. -/
theorem settle {whole : Tree → Tree → Prop} (mirrors : Mirrors whole op op' before) (p p' : Patch)
    (shows : ∀ t t' shown, before t t' → t.reveal = .ok shown →
      ∃ shown', t'.reveal = .ok shown' ∧ after shown shown') :
    Mirrors whole (fun focus root => settle focus p (op focus root))
      (fun focus root => settle focus p' (op' focus root)) after := by
  intro focus root root' t t' there there' alike
  have reveals : Respects before Focus.reveal after :=
    revealed shows fun _ _ _ => ok
  exact (mirrors.bind reveals focus there there' alike).located _ _ _ _

end Mirrors

end ConfigSweep.Merge
