import ConfigSweep.Patch.Classify
import ConfigSweep.Proofs.Undisguised
import Mathlib.Data.List.DropRight

/-!
# Printed calls and scripts

What is printed of a call, of a text with an embedded call and of a script is read back as what it
was. The literals of a script were revealed when they were read, so that revealing them again
changes nothing.
-/

namespace ConfigSweep

section Texts

namespace Text

theorem toList_trimmed (text : String) :
    (trimmed text).toList = (text.toList.dropWhile isBlank).rdropWhile isBlank :=
  String.toList_ofList

/-- Nothing is taken off a text that was trimmed. -/
theorem trimmed_trimmed (text : String) : trimmed (trimmed text) = trimmed text := by
  refine String.toList_inj.mp ?_
  rw [toList_trimmed, toList_trimmed]
  generalize front : text.toList.dropWhile isBlank = cs
  have bare : cs.dropWhile isBlank = cs := by
    rw [← front, List.dropWhile_idempotent]
  have start : (cs.rdropWhile isBlank).dropWhile isBlank = cs.rdropWhile isBlank := by
    refine List.dropWhile_eq_self_iff.mpr fun filled => ?_
    have same := (List.rdropWhile_prefix isBlank cs).getElem filled
    have long := filled.trans_le (List.rdropWhile_prefix isBlank cs).length_le
    exact same ▸ List.dropWhile_eq_self_iff.mp bare long
  rw [start, List.rdropWhile_idempotent]

theorem after?_append (pattern rest : List Char) (filled : pattern ≠ []) :
    after? pattern (pattern ++ rest) = some rest := by
  obtain ⟨c, cs, rfl⟩ := List.exists_cons_of_ne_nil filled
  have starts : (c :: cs).isPrefixOf (c :: cs ++ rest) = true :=
    List.isPrefixOf_iff_prefix.mpr (List.prefix_append _ _)
  rw [List.cons_append, after?, ← List.cons_append, if_pos starts, List.drop_left]

theorem dropStem?_append (stem rest : List Char) : dropStem? stem (stem ++ rest) = some rest := by
  rw [dropStem?, if_pos (List.isPrefixOf_iff_prefix.mpr (List.prefix_append _ _)), List.drop_left]

theorem beforeLast?_concat (c : Char) (cs : List Char) : beforeLast? c (cs ++ [c]) = some cs := by
  induction cs with
  | nil => simp [beforeLast?]
  | cons d ds ih => rw [List.cons_append, beforeLast?, ih]

end Text

/-- The call that is embedded in a text is found in it. -/
theorem embeddedCall?_embedded (call : Call) :
    embeddedCall? (Patch.embedded call) = some call.expression := by
  have text : (Patch.embedded call).toList
      = Keyword.eval.toList ++ (['('] ++ (call.expression.toList ++ [')'])) := by
    simp [Patch.embedded]
  rw [embeddedCall?, text, Text.after?_append _ _ (by decide), Option.bind_some,
    Text.dropStem?_append, Option.bind_some, Text.beforeLast?_concat, Option.map_some,
    String.ofList_toList]

/-- A text with an embedded call is read as that call if its name is trimmed. -/
theorem Patch.ofText_embedded {call : Call} (trimmed : Text.trimmed call.expression = call.expression)
    (single : call.entry = none) : ofText (embedded call) = .fromPrevious call := by
  rw [ofText, embeddedCall?_embedded]
  dsimp only
  rw [trimmed, Call.named, ← single]

end Texts

theorem Call.ofTree_toTree (call : Call) : Call.ofTree call.toTree = .ok call := by
  obtain ⟨expression, entry⟩ := call
  cases entry with
  | none => rfl
  | some entry => rfl

namespace Tree

/-- Revealing changes nothing where no node is a list in disguise. -/
theorem revealAll_of_undisguised {t : Tree} (plain : t.Undisguised) : t.revealAll = .ok t := by
  induction t using children_induction with
  | node t ih =>
    cases t with
    | list items =>
      refine revealAll_list_eq_ok.mpr ⟨items, ?_, rfl⟩
      refine List.forall₂_same.mpr fun item member => ?_
      obtain ⟨step, child⟩ := exists_child_of_item member
      exact ih _ child (plain.child _ child)
    | mapping entries =>
      refine revealAll_mapping_eq_ok.mpr ⟨entries, ?_, reveal_plain plain.here⟩
      refine List.forall₂_same.mpr fun e member => ⟨rfl, ?_⟩
      exact ih _ (child_of_entry member) (plain.child _ (child_of_entry member))
    | _ => rfl

end Tree

section Scripts

open ConfigSweep.Tree

theorem Tree.word_of_index? {t : Tree} {n : Int} (counts : t.index? = some n) :
    -Word.signedBound ≤ n ∧ n < Word.signedBound := by
  unfold index? at counts
  split at counts
  · split at counts
    · next word => exact Option.some.inj counts ▸ word
    · cases counts
  · cases counts

/-- A call that is asked for is no list in disguise. -/
theorem Call.undisguised_directive (call : Call) : call.directive.Undisguised := by
  obtain ⟨expression, entry⟩ := call
  have asks : ∀ t : Tree, (Tree.mapping [(Keyword.eval, t)]).isDisguised = false := fun t =>
    Mapping.isPositional_of_key (List.mem_singleton_self Keyword.eval) (by decide)
  cases entry with
  | none => exact ⟨asks _, rfl, trivial⟩
  | some entry =>
    have plain : Position.isToken "expression" = false := by decide
    have fields : (Call.toTree ⟨expression, some entry⟩).isDisguised = false :=
      Mapping.isPositional_of_key List.mem_cons_self plain
    exact ⟨asks _, ⟨fields, rfl, rfl, trivial⟩, trivial⟩

theorem EditValue.ofTree_toTree {t : Tree} {value : EditValue} (done : EditValue.ofTree t = .ok value) :
    EditValue.ofTree value.toTree = .ok value := by
  cases value with
  | literal v =>
    obtain rfl := EditValue.eq_of_ofTree done
    exact done
  | computed call =>
    rw [toTree, Call.directive, EditValue.ofTree, Mapping.get?_cons, if_pos rfl]
    dsimp only [List.length_cons, List.length_nil]
    rw [if_neg (by decide), Call.ofTree_toTree]
    rfl

theorem EditValue.undisguised_toTree {t : Tree} {value : EditValue} (plain : t.Undisguised)
    (done : EditValue.ofTree t = .ok value) : value.toTree.Undisguised := by
  cases value with
  | literal v => exact EditValue.eq_of_ofTree done ▸ plain
  | computed call => exact call.undisguised_directive

namespace Edit

/-- What is printed of an argument is read as what the argument was read as, and it is not changed
by being revealed. -/
theorem ArgumentFrom.printed {t : Tree} {position : Int} {value : Option EditValue}
    (given : ArgumentFrom t position value) (plain : t.Undisguised) :
    (argument position value).Undisguised ∧ ArgumentFrom (argument position value) position value := by
  cases given with
  | position counts => exact ⟨rfl, .position (if_pos (word_of_index? counts))⟩
  | @pair _ second _ _ counts read =>
    have item := everywhereItems_iff.mp plain.2 second (by simp)
    exact ⟨⟨rfl, rfl, EditValue.undisguised_toTree item read, trivial⟩,
      .pair (if_pos (word_of_index? counts)) (EditValue.ofTree_toTree read)⟩

theorem ofTree_toTree {t : Tree} {edit : Edit} (done : Edit.ofTree t = .ok edit) :
    Edit.ofTree edit.toTree = .ok edit := by
  refine Edit.ofTree_iff.mpr ?_
  cases Edit.ofTree_iff.mp done with
  | insert named reveals read =>
    obtain ⟨plain, printed⟩ := read.printed (undisguised_of_revealAll reveals)
    exact .insert rfl (revealAll_of_undisguised plain) printed
  | overwrite named reveals read =>
    obtain ⟨plain, printed⟩ := read.printed (undisguised_of_revealAll reveals)
    exact .overwrite rfl (revealAll_of_undisguised plain) printed
  | remove named reveals counts => exact .remove rfl rfl (if_pos (word_of_index? counts))

end Edit

/-- A script is read back when its instructions are. -/
theorem Script.ofTree_toTree {script : Script}
    (each : ∀ edit ∈ script, Edit.ofTree edit.toTree = .ok edit) :
    Script.ofTree script.toTree = .ok script := by
  refine mapM_eq_ok.mpr ?_
  rw [List.forall₂_map_left_iff, List.forall₂_same]
  exact each

/-- Every instruction that was read as part of a script is read back. -/
theorem Script.reads_back {t : Tree} {script : Script} (done : Script.ofTree t = .ok script) :
    ∀ edit ∈ script, Edit.ofTree edit.toTree = .ok edit := by
  intro edit member
  obtain ⟨c, -, read⟩ := Script.exists_child_of_ofTree done edit member
  exact Edit.ofTree_toTree read

end Scripts

end ConfigSweep
