import ConfigSweep.Patch

/-!
# Patches within patches

The patches that a patch is made of, induction from them to the whole, and properties that hold of a
patch and of everything within it.
-/

namespace ConfigSweep

namespace KeyedPatch

variable {α : Type} {k : KeyedPatch α} {a : α}

/-- The patches of the entries, the groups and the upserts. -/
def patches (k : KeyedPatch α) : List α :=
  k.entries.map (·.2) ++ k.groups.map (·.2) ++ k.upserts.map (·.2)

theorem mem_patches : a ∈ k.patches ↔ (∃ e ∈ k.entries, e.2 = a) ∨ (∃ e ∈ k.groups, e.2 = a) ∨
    ∃ u ∈ k.upserts, u.2 = a := by
  simp only [patches, List.mem_append, List.mem_map, or_assoc]

theorem mem_patches_of_entry {e : String × α} (member : e ∈ k.entries) : e.2 ∈ k.patches :=
  mem_patches.mpr (.inl ⟨e, member, rfl⟩)

theorem mem_patches_of_group {e : String × α} (member : e ∈ k.groups) : e.2 ∈ k.patches :=
  mem_patches.mpr (.inr (.inl ⟨e, member, rfl⟩))

theorem mem_patches_of_upsert {u : Option String × α} (member : u ∈ k.upserts) : u.2 ∈ k.patches :=
  mem_patches.mpr (.inr (.inr ⟨u, member, rfl⟩))

end KeyedPatch

namespace Patch

/-- The patches that are merged in the course of merging the patch. -/
def children : Patch → List Patch
  | .list items => items
  | .sparse slots => slots.slots.map (·.2)
  | .edits _ payload => payload.patches
  | .keyed patch => patch.patches
  | _ => []

section Induction

variable {motive : Patch → Prop}

mutual

/-- Induction over patches with one case: a property passes from the children to the patch. -/
theorem children_induction (node : ∀ p, (∀ c ∈ p.children, motive c) → motive p) : ∀ p, motive p
  | .scalar _ => node _ nofun
  | .fromPrevious _ => node _ nofun
  | .fromRoot _ => node _ nofun
  | .list items => node _ (items_induction node items)
  | .sparse ⟨slots⟩ => node _ (List.forall_mem_map.mpr (slots_induction node slots))
  | .edits _ payload => node _ (keyed_induction node payload)
  | .keyed patch => node _ (keyed_induction node patch)

theorem items_induction (node : ∀ p, (∀ c ∈ p.children, motive c) → motive p) :
    ∀ ps : List Patch, ∀ p ∈ ps, motive p
  | [] => nofun
  | p :: ps => List.forall_mem_cons.mpr ⟨children_induction node p, items_induction node ps⟩

theorem slots_induction (node : ∀ p, (∀ c ∈ p.children, motive c) → motive p) :
    ∀ slots : List (Nat × Patch), ∀ slot ∈ slots, motive slot.2
  | [] => nofun
  | (_, p) :: rest =>
    List.forall_mem_cons.mpr ⟨children_induction node p, slots_induction node rest⟩

theorem keyed_induction (node : ∀ p, (∀ c ∈ p.children, motive c) → motive p) :
    ∀ k : KeyedPatch Patch, ∀ p ∈ k.patches, motive p
  | ⟨entries, groups, upserts⟩ => by
    intro p member
    rcases KeyedPatch.mem_patches.mp member with
      ⟨e, inside, rfl⟩ | ⟨e, inside, rfl⟩ | ⟨u, inside, rfl⟩
    · exact named_induction node entries e inside
    · exact named_induction node groups e inside
    · exact upserts_induction node upserts u inside

theorem named_induction (node : ∀ p, (∀ c ∈ p.children, motive c) → motive p) :
    ∀ named : List (String × Patch), ∀ e ∈ named, motive e.2
  | [] => nofun
  | (_, p) :: rest =>
    List.forall_mem_cons.mpr ⟨children_induction node p, named_induction node rest⟩

theorem upserts_induction (node : ∀ p, (∀ c ∈ p.children, motive c) → motive p) :
    ∀ upserts : List (Option String × Patch), ∀ u ∈ upserts, motive u.2
  | [] => nofun
  | (_, p) :: rest =>
    List.forall_mem_cons.mpr ⟨children_induction node p, upserts_induction node rest⟩

end

end Induction

/-- The property holds of the patch and of all patches within it. -/
inductive Everywhere (holds : Patch → Prop) : Patch → Prop where
  | intro {p : Patch} (here : holds p) (within : ∀ c ∈ p.children, Everywhere holds c) :
      Everywhere holds p

namespace Everywhere

variable {holds other : Patch → Prop} {p : Patch}

theorem imp (step : ∀ p, holds p → other p) (everywhere : p.Everywhere holds) :
    p.Everywhere other := by
  induction everywhere with
  | intro here within ih => exact .intro (step _ here) ih

theorem and (first : p.Everywhere holds) (second : p.Everywhere other) :
    p.Everywhere fun p => holds p ∧ other p := by
  induction first with
  | intro here within ih =>
    cases second with
    | intro here' within' => exact .intro ⟨here, here'⟩ fun c member => ih c member (within' c member)

end Everywhere

end Patch

end ConfigSweep
