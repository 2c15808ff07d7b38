import ConfigSweep.Failure
import Mathlib.Logic.Relation
import Mathlib.Order.WellFounded

/-!
# Where a walk fails

A walk is a recursion that visits nodes and locates the failure of every visit. A failure gets its
place at the innermost visit that was under way when it arose, and no visit further out changes it.
-/

namespace ConfigSweep

namespace Outcome

variable {α : Type} {trail : Trail} {patch : Tree} {outcome : Outcome α} {f : Failure}

theorem located_eq_error_iff :
    located trail patch outcome = .error f ↔
      ∃ g, outcome = .error g ∧ g.locate trail.dotted patch = f := by
  cases outcome with
  | error g => simp [located]
  | ok a => simp [located]

/-- A located failure has a place. -/
theorem place_of_located (failed : located trail patch outcome = .error f) : f.place ≠ none := by
  obtain ⟨g, -, rfl⟩ := located_eq_error_iff.mp failed
  unfold Failure.locate
  split
  · next place found => simp [found]
  · simp

/-- A failure that has a place is handed on as it is. -/
theorem located_of_place (placed : f.place ≠ none) :
    located trail patch (.error f : Outcome α) = .error f := by
  obtain ⟨place, found⟩ := Option.ne_none_iff_exists'.mp placed
  rw [located, Failure.locate, found]

end Outcome

/-- A recursion by its visits: which visits each of them enters, how it is reported, and what it
does before its failure is located. -/
structure Walk (Visit α : Type) where
  Enters : Visit → Visit → Prop
  trail : Visit → Trail
  patch : Visit → Tree
  work : Visit → Outcome α

namespace Walk

variable {Visit α : Type} (w : Walk Visit α) {start visit : Visit} {f : Failure}

def place (visit : Visit) : Place :=
  ⟨(w.trail visit).dotted, (w.patch visit).pretty⟩

def run (visit : Visit) : Outcome α :=
  Outcome.located (w.trail visit) (w.patch visit) (w.work visit)

/-- Visits are entered finitely deep, their failures end the visit that entered them, and a visit
that fails otherwise does so without a place. -/
structure Lawful : Prop where
  ends : WellFounded fun inner outer => w.Enters outer inner
  passes : ∀ {outer inner f}, w.Enters outer inner → w.run inner = .error f →
    w.work outer = .error f
  arises : ∀ {outer f}, w.work outer = .error f →
    f.place = none ∨ ∃ inner, w.Enters outer inner ∧ w.run inner = .error f

/-- The visit fails on its own in the course of the walk: it was entered, and all visits that it
entered itself had succeeded. -/
structure RaisedAt (start visit : Visit) (cause : Cause) : Prop where
  active : Relation.ReflTransGen w.Enters start visit
  fails : w.work visit = .error ⟨cause, none⟩
  innermost : ∀ inner, w.Enters visit inner → ∃ a, w.run inner = .ok a

namespace Lawful

variable {w} (lawful : w.Lawful)

include lawful

/-- A visit that fails without a place is the innermost one that fails. -/
theorem innermost (failed : w.work visit = .error f) (bare : f.place = none) :
    ∀ inner, w.Enters visit inner → ∃ a, w.run inner = .ok a := by
  intro inner enters
  cases result : w.run inner with
  | ok a => exact ⟨a, rfl⟩
  | error g =>
    obtain rfl := Except.error.inj ((lawful.passes enters result).symm.trans failed)
    exact absurd bare (Outcome.place_of_located result)

/-- The failure of a visit ends every visit that was under way, and keeps its place. -/
theorem run_of_active (active : Relation.ReflTransGen w.Enters start visit)
    (failed : w.run visit = .error f) : w.run start = .error f := by
  induction active using Relation.ReflTransGen.head_induction_on with
  | refl => exact failed
  | head enters _ ih =>
    rw [run, lawful.passes enters ih]
    exact Outcome.located_of_place (Outcome.place_of_located failed)

/-- A walk fails where a visit under way fails on its own, and the failure has the place of that
visit. -/
theorem run_eq_error_iff :
    w.run start = .error f ↔
      ∃ visit, w.RaisedAt start visit f.cause ∧ f.place = some (w.place visit) := by
  constructor
  · intro failed
    induction start using lawful.ends.induction with
    | _ start ih =>
      obtain ⟨g, fails, located⟩ := Outcome.located_eq_error_iff.mp failed
      rcases lawful.arises fails with bare | ⟨inner, enters, passed⟩
      · obtain ⟨cause, place⟩ := g
        obtain rfl : place = none := bare
        obtain rfl := located.symm
        exact ⟨start, ⟨.refl, fails, lawful.innermost fails rfl⟩, rfl⟩
      · rw [run, fails, Outcome.located_of_place (Outcome.place_of_located passed)] at failed
        obtain rfl := Except.error.inj failed
        obtain ⟨visit, raised, placed⟩ := ih inner enters passed
        exact ⟨visit, ⟨raised.active.head enters, raised.fails, raised.innermost⟩, placed⟩
  · rintro ⟨visit, raised, placed⟩
    refine lawful.run_of_active raised.active ?_
    rw [run, raised.fails, Outcome.located_eq_error_iff]
    refine ⟨_, rfl, ?_⟩
    obtain ⟨cause, place⟩ := f
    obtain rfl : place = some (w.place visit) := placed
    rfl

end Lawful

end Walk

end ConfigSweep
