import ConfigSweep.Proofs.CallFree

/-!
# Reading at any trail

The trail at which a tree is read is for reports of failures. What can be read of a tree as a part
of a larger one is what is read of it alone.
-/

namespace ConfigSweep.Patch

/-- What can be read of the tree at one trail can be read at all, as a node and as upserts. -/
structure ReadsAnywhere (t : Tree) : Prop where
  node : ∀ trail {p}, ofTreeAt t trail = .ok p → ∀ other, ofTreeAt t other = .ok p
  upserts : ∀ trail {us}, upsertsOf t trail = .ok us → ∀ other, upsertsOf t other = .ok us

section Parts

variable {trail other : Trail} {entries : List (String × Tree)}

theorem ofItems_anywhere {items : List Tree} (each : ∀ t ∈ items, ReadsAnywhere t) {start : Nat}
    {ps : List Patch} (done : ofItems items start trail = .ok ps) :
    ofItems items start other = .ok ps := by
  refine ofItems_of_forall₂ ?_
  refine ((List.forall₂_and_left items ps).mpr ⟨each, ofItems_from done⟩).imp fun t p both => ?_
  obtain ⟨anywhere, trail, read⟩ := both
  exact anywhere.node trail read

theorem NamedFrom.anywhere {below below' : String → Trail} (each : ∀ e ∈ entries, ReadsAnywhere e.2)
    {named : List (String × Patch)} (read : NamedFrom below entries named) :
    NamedFrom below' entries named := by
  refine ((List.forall₂_and_left entries named).mpr ⟨each, read⟩).imp fun e n both => ?_
  exact ⟨both.2.1, both.1.node _ both.2.2 _⟩

theorem PartsFrom.anywhere (each : ∀ e ∈ entries, ReadsAnywhere e.2) {parts : List Part}
    (read : PartsFrom trail entries parts) : PartsFrom other entries parts := by
  refine ((List.forall₂_and_left entries parts).mpr ⟨each, read⟩).imp fun e part both => ?_
  obtain ⟨anywhere, from'⟩ := both
  cases from' with
  | group p named reads => exact .group p named (anywhere.node _ reads _)
  | upserts us named reads => exact .upserts us named (anywhere.upserts _ reads _)
  | plain p single named reads => exact .plain p single named (anywhere.node _ reads _)

end Parts

/-- Every tree is read alike at all trails. -/
theorem readsAnywhere (t : Tree) : ReadsAnywhere t := by
  induction t using Tree.children_induction with
  | node t below =>
    constructor
    · intro trail p done other
      rw [ofTreeAt_iff] at done ⊢
      cases done with
      | scalar leaf plain => exact .scalar leaf plain
      | fromPrevious embedded => exact .fromPrevious embedded
      | fromRoot kind read => exact .fromRoot kind read
      | list read => exact .list (ofItems_anywhere (Tree.allChildren_list.mp below) read)
      | sparse kind read => exact .sparse kind (read.anywhere (Tree.allChildren_mapping.mp below))
      | edits kind scripted read =>
        refine .edits kind scripted (read.anywhere fun e member => ?_)
        exact Tree.allChildren_mapping.mp below e (Mapping.mem_of_mem_remove member)
      | keyed kind read => exact .keyed kind (read.anywhere (Tree.allChildren_mapping.mp below))
    · intro trail us done other
      rw [upsertsOf_iff] at done ⊢
      cases done with
      | items read => exact .items (ofItems_anywhere (Tree.allChildren_list.mp below) read)
      | named read => exact .named (read.anywhere (Tree.allChildren_mapping.mp below))

/-- A tree is read below a mapping as it is read alone. -/
theorem ofTreeAt_eq_ok {t : Tree} {trail : Trail} {p : Patch} :
    ofTreeAt t trail = .ok p ↔ ofTree t = .ok p :=
  ⟨fun done => (readsAnywhere t).node _ done _, fun done => (readsAnywhere t).node _ done _⟩

/-- Trees and the patches that they are read as. -/
abbrev TreesFrom : List Tree → List Patch → Prop :=
  List.Forall₂ fun t p => ofTree t = .ok p

/-- The patches of a list are those of its items, each read alone. -/
theorem ofItems_eq_ok {items : List Tree} {start : Nat} {trail : Trail} {ps : List Patch} :
    ofItems items start trail = .ok ps ↔ TreesFrom items ps := by
  constructor
  · intro done
    refine (ofItems_from done).imp fun t p read => ?_
    obtain ⟨trail, read⟩ := read
    exact ofTreeAt_eq_ok.mp read
  · intro read
    exact ofItems_of_forall₂ (read.imp fun t p alone trail => ofTreeAt_eq_ok.mpr alone)

end ConfigSweep.Patch
