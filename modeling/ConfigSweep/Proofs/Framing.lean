import ConfigSweep.Proofs.Operations

/-!
# What a merge touches

Merging a patch, calls on the root included, changes nothing but the node in focus, and how nodes
are labelled makes no difference to what becomes of them. So patches that come back to a node under
labels merge into it as if they were the only ones.
-/

namespace ConfigSweep

namespace Merge

/-- The operation takes no notice of labels and, at a node that is there, changes that node only. -/
structure Framed (op : Focus → Tree → Outcome Tree) : Prop where
  same : ∀ {focus other root r}, focus.Same other → op focus root = .ok r → op other root = .ok r
  frame : ∀ focus {root t r}, root.get? focus.path = some t → op focus root = .ok r →
    ∃ value, Tree.replace? value focus.path root = some r

section Steps

variable {op next : Focus → Tree → Outcome Tree}

theorem Framed.ok : Framed fun _ root => .ok root where
  same _ done := done
  frame focus _ _ _ there done := by
    obtain rfl := Except.ok.inj done
    exact ⟨_, Tree.replace?_self there⟩

theorem Framed.write (value : Tree) : Framed fun focus root => focus.write value root where
  same same done := same.write done
  frame _ _ _ _ _ done := ⟨value, Focus.write_eq_ok.mp done⟩

theorem Framed.bind (first : Framed op) (second : Framed next) :
    Framed fun focus root => op focus root >>= next focus where
  same same done := by
    obtain ⟨changed, done, done'⟩ := bind_eq_ok.mp done
    exact bind_eq_ok.mpr ⟨changed, first.same same done, second.same same done'⟩
  frame focus _ _ _ there done := by
    obtain ⟨changed, done, done'⟩ := bind_eq_ok.mp done
    obtain ⟨u, replaced⟩ := first.frame focus there done
    obtain ⟨v, replaced'⟩ := second.frame focus (Tree.get?_replace? replaced) done'
    exact ⟨v, Tree.replace?_replace? replaced v ▸ replaced'⟩

theorem Framed.given {α : Type} {next : α → Focus → Tree → Outcome Tree} {outcome : Tree → Outcome α}
    (each : ∀ a, Framed (next a)) :
    Framed fun focus root => outcome root >>= fun a => next a focus root where
  same same done := by
    obtain ⟨a, yields, done⟩ := bind_eq_ok.mp done
    exact bind_eq_ok.mpr ⟨a, yields, (each a).same same done⟩
  frame focus _ _ _ there done := by
    obtain ⟨a, -, done⟩ := bind_eq_ok.mp done
    exact (each a).frame focus there done

theorem Framed.read {next : Tree → Focus → Tree → Outcome Tree} (each : ∀ t, Framed (next t)) :
    Framed fun focus root => focus.read root >>= fun t => next t focus root where
  same same done := by
    obtain ⟨t, reads, done⟩ := bind_eq_ok.mp done
    exact bind_eq_ok.mpr ⟨t, same.read reads, (each t).same same done⟩
  frame focus _ _ _ there done := by
    obtain ⟨t, -, done⟩ := bind_eq_ok.mp done
    exact (each t).frame focus there done

theorem Framed.under (framed : Framed op) (label : String) :
    Framed fun focus root => op (focus.under label) root where
  same same done := framed.same (same.under label label) done
  frame focus _ _ _ there done := framed.frame (focus.under label) there done

theorem Framed.child (framed : Framed op) (attached : Attached op) (step : Step)
    {down : Focus → Focus} (below : ∀ focus, (down focus).path = focus.path ++ [step]) :
    Framed fun focus root => op (down focus) root where
  same {focus other _ _} same done := by
    have lower : (down focus).Same (down other) := by
      unfold Focus.Same at same ⊢
      rw [below, below, same]
    exact framed.same lower done
  frame focus _ _ _ there done := by
    obtain ⟨c, found⟩ := attached _ _ _ done
    obtain ⟨value, replaced⟩ := framed.frame (down focus) found done
    rw [below, Tree.get?_concat, there, Option.bind_some] at found
    rw [below, Tree.replace?_concat there found] at replaced
    exact ⟨_, replaced⟩

theorem Framed.compositional : Compositional Framed where
  congr framed same := {
    same := fun alike done => (same _ _ _).mpr (framed.same alike ((same _ _ _).mp done))
    frame := fun focus _ _ _ there done => framed.frame focus there ((same _ _ _).mp done) }
  ok := .ok
  fail _ := ⟨nofun, nofun⟩
  write := .write
  bind := .bind
  given _ := .given
  read := .read
  under := .under
  child := .child

end Steps

variable (evaluator : Evaluator)

mutual

/-- A patch changes nothing but the node it is merged into, however the node is labelled. -/
theorem node_framed : ∀ p : Patch, Framed (node evaluator p)
  | .scalar value => Framed.compositional.scalar value
  | .fromRoot call => Framed.compositional.fromRoot (fun _ _ => .given) call
  | .fromPrevious call => Framed.compositional.fromPrevious call
  | .list patches => Framed.compositional.list (items_framed patches)
  | .sparse ⟨patches⟩ => Framed.compositional.sparse (slots_framed patches)
  | .edits _ payload => Framed.compositional.edits (fun _ _ => .inr fun _ _ => .given)
    (keyed_framed payload)
  | .keyed patch => Framed.compositional.settle (keyed_framed patch) _

theorem items_framed : ∀ ps : List Patch, ∀ p ∈ ps, Framed (node evaluator p)
  | [] => nofun
  | p :: ps => List.forall_mem_cons.mpr ⟨node_framed p, items_framed ps⟩

theorem slots_framed : ∀ slots : List (Nat × Patch), ∀ slot ∈ slots, Framed (node evaluator slot.2)
  | [] => nofun
  | (_, p) :: rest => List.forall_mem_cons.mpr ⟨node_framed p, slots_framed rest⟩

theorem keyed_framed : ∀ patch : KeyedPatch Patch,
    Framed fun focus root => keyed evaluator patch focus root
  | ⟨entries, groups, upserts⟩ => Framed.compositional.keyed (named_framed entries)
    (named_framed groups) (upserts_framed upserts)

theorem named_framed : ∀ named : List (String × Patch), ∀ e ∈ named, Framed (node evaluator e.2)
  | [] => nofun
  | (_, p) :: rest => List.forall_mem_cons.mpr ⟨node_framed p, named_framed rest⟩

theorem upserts_framed : ∀ upserts : List (Option String × Patch),
    ∀ u ∈ upserts, Framed (node evaluator u.2)
  | [] => nofun
  | (_, p) :: rest => List.forall_mem_cons.mpr ⟨node_framed p, upserts_framed rest⟩

end

end Merge

end ConfigSweep
