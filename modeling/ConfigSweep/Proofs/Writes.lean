import ConfigSweep.Proofs.Registration

/-!
# What a registration writes

A registration writes aliases of axes, meanings of value aliases and marks of axes that have such.
What these writes keep holds of the table that a registration leaves, whether it ends or stops.
-/

namespace ConfigSweep.AliasTable

variable {good : AliasTable → Prop} {t : AliasTable}

/-- The table that is left in the end, or where a failure stopped, is good. -/
def Leaves {α : Type} (good : AliasTable → Prop) (table : α → AliasTable) :
    Except (Stopped AliasTable) α → Prop
  | .ok a => good (table a)
  | .error stopped => good stopped.left

theorem Leaves.bind {α β : Type} {table : α → AliasTable} {table' : β → AliasTable}
    {first : Except (Stopped AliasTable) α} {next : α → Except (Stopped AliasTable) β}
    (here : Leaves good table first)
    (onward : ∀ a, good (table a) → Leaves good table' (next a)) :
    Leaves good table' (first >>= next) := by
  cases first with
  | ok a => exact onward a here
  | error stopped => exact here

/-- Giving an alias to an axis keeps the property. -/
structure KeptByNames (good : AliasTable → Prop) : Prop where
  name : ∀ {t} key name, good t → good (t.setKey key name)

/-- Writes for the values of axes keep the property. -/
structure KeptByValues (good : AliasTable → Prop) : Prop where
  value : ∀ {t} name v, good t → good { t with values := t.values.insert name v }
  mark : ∀ {t} key, good t → good { t with aliased := t.aliased.insert key () }

/-- All writes of a registration keep the property. -/
structure KeptByWrites (good : AliasTable → Prop) : Prop extends KeptByNames good, KeptByValues good

theorem KeptByNames.registerIdentifier (kept : KeptByNames good) (start : good t) {axis : Axis}
    {owners claimed : Owners} {after : AliasTable}
    (done : t.registerIdentifier axis owners = .ok (claimed, after)) : good after := by
  unfold AliasTable.registerIdentifier at done
  split at done
  · obtain ⟨-, rfl⟩ := Prod.mk.inj (Except.ok.inj done)
    exact start
  · obtain ⟨_, -, done⟩ := bind_eq_ok.mp done
    obtain ⟨-, rfl⟩ := Prod.mk.inj (Except.ok.inj done)
    exact kept.name _ _ start
  · cases done

theorem KeptByNames.setKeys (kept : KeptByNames good) (derived : List (AxisKey × String)) :
    ∀ {t : AliasTable}, good t → good (t.setKeys derived) := by
  induction derived with
  | nil => exact fun start => start
  | cons e rest ih => exact fun start => ih (kept.name e.1 e.2 start)

theorem KeptByValues.nameValues (kept : KeptByValues good) (axis : AxisKey)
    (pairs : List (Tree × Tree)) : ∀ {known : Table Tree}, good { t with values := known } →
      (∀ named, AliasTable.nameValues axis pairs known = .ok named →
          good { t with values := named }) ∧
        ∀ stopped, AliasTable.nameValues axis pairs known = .error stopped →
          good { t with values := stopped.left } := by
  induction pairs with
  | nil =>
    intro known start
    constructor
    · intro named done
      obtain rfl := Except.ok.inj done
      exact start
    · intro stopped failed
      cases failed
  | cons p rest ih =>
    obtain ⟨said, value⟩ := p
    intro known start
    cases said with
    | str name =>
      rw [AliasTable.nameValues]
      split
      · exact ih (kept.value name value start)
      · split
        · exact ih start
        · constructor
          · intro named done
            cases done
          · intro stopped failed
            obtain rfl := Except.error.inj failed
            exact start
    | _ =>
      constructor
      · intro named done
        cases done
      · intro stopped failed
        obtain rfl := Except.error.inj failed
        exact start

theorem KeptByValues.registerValues (kept : KeptByValues good) (start : good t) (key : AxisKey)
    (declaration : Mapping Tree) : Leaves good Prod.fst (t.registerValues key declaration) := by
  unfold AliasTable.registerValues
  dsimp only
  split
  · exact start
  · split
    · split
      · exact start
      · split
        · next stopped failed => exact (kept.nameValues key _ start).2 stopped failed
        · next known done => exact kept.mark key.text ((kept.nameValues key _ start).1 known done)
    · exact start
  · exact start

theorem KeptByWrites.registerDeclared (kept : KeptByWrites good) (axes : List Axis) :
    ∀ {owners : Owners} {t : AliasTable}, good t →
      Leaves good Registration.table (AliasTable.registerDeclared axes owners t) := by
  induction axes with
  | nil => exact fun start => start
  | cons axis rest ih =>
    intro owners t start
    rw [AliasTable.registerDeclared]
    split
    · exact start
    · next claimed named identified =>
      have identifiedGood := kept.registerIdentifier start identified
      exact (kept.registerValues identifiedGood _ _).bind fun valued valuedGood =>
        (ih valuedGood).bind fun r registered => registered

/-- A registration leaves a table with the properties that its writes keep. -/
theorem KeptByWrites.register (kept : KeptByWrites good) (start : good t) (axes : List Axis) :
    Leaves good Prod.fst (t.register axes) := by
  unfold AliasTable.register
  refine (kept.registerDeclared axes start).bind fun r registered => ?_
  dsimp only
  split
  · exact registered
  · exact kept.setKeys _ registered

end ConfigSweep.AliasTable
