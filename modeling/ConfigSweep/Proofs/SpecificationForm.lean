import ConfigSweep.Proofs.Equality
import ConfigSweep.Proofs.IndexedScript
import ConfigSweep.Proofs.Rebuilt
import ConfigSweep.Specification
import Mathlib.Data.List.Perm.Subperm

/-!
# What a specification keeps

A sweep in standard form is read as a specification and written again. Every entry without a meaning
is kept as it is, and so are the parameters. Of the other fields only what the specification knows
is kept: nulls are left out, variants become texts, and a metric has a name and a goal.
-/

namespace ConfigSweep

namespace Tree

/-- The tree, if it is not null. -/
def present? : Tree → Option Tree
  | .null => none
  | t => some t

/-- A variant that is written as a mapping is written as a text. -/
def variantText : Tree → Tree
  | .mapping [(name, _)] => .str name
  | t => t

/-- What is kept of a metric: its name and its goal. -/
def metricKept : Tree → Tree
  | .list [name, goal] => .mapping [("name", name), ("goal", goal.variantText)]
  | t => .mapping [("name", (t.field? "name").getD .null),
      ("goal", ((t.field? "goal").getD .null).variantText)]

/-- What is kept of the value under a key of a sweep in standard form. -/
def fieldKept (key : String) (t : Tree) : Option Tree :=
  if key = "name" then t.present?
  else if key = "method" then some t.variantText
  else if key = "metric" then t.present?.map metricKept
  else some t

/-- The value under a key of a sweep in standard form is kept whole: a name is not null, a method is
a text, and a metric is a mapping of a name and of a goal that is a text. -/
def keptWhole (key : String) (t : Tree) : Bool :=
  if key = "name" then t.present?.isSome
  else if key = "method" then t.text?.isSome
  else if key = "metric" then
    t.entries?.any fun m => (Mapping.keys m).all (["name", "goal"].contains ·) &&
      ((m.get? "goal").bind text?).isSome
  else true

theorem sameValue_str_iff {text : String} {t : Tree} :
    sameValue (.str text) t = true ↔ t = .str text := by
  cases t with
  | str other => rw [sameValue, beq_iff_eq, Tree.str.injEq, eq_comm]
  | _ => simp [sameValue]

end Tree

/-- A mapping with two keys has no others exactly when it has two entries. -/
theorem Mapping.length_eq_two_iff {α : Type} {m : Mapping α} (unique : (keys m).Nodup)
    {a b : String} (different : a ≠ b) (first : a ∈ keys m) (second : b ∈ keys m) :
    m.length = 2 ↔ ∀ key ∈ keys m, key ∈ [a, b] := by
  have pair : [a, b].Nodup := by simp [different]
  have both : [a, b] ⊆ keys m := by simp [first, second]
  have within := List.subperm_of_subset pair both
  have length : (keys m).length = m.length := List.length_map _
  constructor
  · intro two key member
    have all := within.perm_of_length_le (by simp [length, two])
    exact all.mem_iff.mpr member
  · intro only
    have fewer := (List.subperm_of_subset unique only).length_le
    have more := within.length_le
    simp only [length, List.length_cons, List.length_nil] at fewer more
    omega

namespace Record

variable {α : Type} {t : Tree} {a : α}

theorem text_eq_ok {text : String} : Record.text t = .ok text ↔ t = .str text := by
  cases t with
  | str other => simp [Record.text]
  | _ => simp [Record.text]

theorem mapping_eq_ok {m : Mapping Tree} : mapping t = .ok m ↔ t = .mapping m := by
  cases t with
  | mapping entries => simp [mapping]
  | _ => simp [mapping]

/-- A variant is read of its name, alone or as the only key of a mapping. -/
theorem variant_eq_ok {variants : List (String × α)} (done : variant variants t = .ok a) :
    ∃ name, Mapping.get? name variants = some a ∧ t.variantText = .str name ∧
      (t = .str name ∨ t = .mapping [(name, .null)]) := by
  have finds : ∀ {name : String}, variant.find variants name = .ok a →
      Mapping.get? name variants = some a := by
    intro name found
    unfold variant.find at found
    split at found
    · next known => exact Except.ok.inj found ▸ known
    · cases found
  unfold variant at done
  split at done
  · next name => exact ⟨name, finds done, rfl, .inl rfl⟩
  · next name content =>
    obtain ⟨other, found, done⟩ := bind_eq_ok.mp done
    split at done
    · obtain rfl := Except.ok.inj done
      exact ⟨name, finds found, rfl, .inr rfl⟩
    · cases done
  · cases done
  · cases done

/-- Of variants under their own names, the one that is read is written as a text. -/
theorem variantText_of_variant {variants : List α} {name : α → String}
    (done : variant (variants.map fun v => (name v, v)) t = .ok a) :
    t.variantText = .str (name a) := by
  obtain ⟨text, found, read, -⟩ := variant_eq_ok done
  obtain ⟨v, -, same⟩ := List.mem_map.mp (Mapping.mem_of_get? found)
  obtain ⟨rfl, rfl⟩ := Prod.mk.inj same
  exact read

/-- An optional value is absent where null is written. -/
theorem optional_eq_ok {read : Reader α} {value : Option α} (done : optional read t = .ok value) :
    (t = .null ∧ value = none) ∨ (t.present? = some t ∧ ∃ a, read t = .ok a ∧ value = some a) := by
  cases t with
  | null => exact .inl ⟨rfl, (Except.ok.inj done).symm⟩
  | _ =>
    obtain ⟨a, reads, rfl⟩ := map_eq_ok.mp done
    exact .inr ⟨rfl, a, reads, rfl⟩

theorem noMoreThan_eq_ok {count : Nat} {items : List Tree} {done : Unit} :
    noMoreThan count items = .ok done ↔ items.length ≤ count := by
  unfold noMoreThan
  split <;> simp [*]

theorem required_eq_ok {name : String} {read : Reader α} {entries : Mapping Tree}
    (done : required name read entries = .ok a) :
    ∃ t, entries.get? name = some t ∧ read t = .ok a := by
  unfold required at done
  split at done
  · next t found => exact ⟨t, found, done⟩
  · cases done

end Record

namespace Metric

variable {m : Metric}

theorem ofEntries_eq_ok {entries : Mapping Tree} (done : ofEntries entries = .ok m) :
    entries.get? "name" = some (.str m.name) ∧
      ∃ goal, entries.get? "goal" = some goal ∧ Record.goal goal = .ok m.goal := by
  obtain ⟨-, -, done⟩ := bind_eq_ok.mp done
  obtain ⟨name, named, done⟩ := bind_eq_ok.mp done
  obtain ⟨goal, aimed, done⟩ := bind_eq_ok.mp done
  obtain rfl := Except.ok.inj done
  obtain ⟨t, found, reads⟩ := Record.required_eq_ok named
  obtain rfl := Record.text_eq_ok.mp reads
  exact ⟨found, Record.required_eq_ok aimed⟩

theorem metricKept_mapping {entries : Mapping Tree} {name goal : Tree}
    (named : entries.get? "name" = some name) (aimed : entries.get? "goal" = some goal) :
    (Tree.mapping entries).metricKept
      = .mapping [("name", name), ("goal", goal.variantText)] := by
  have first : (Tree.mapping entries).field? "name" = some name := named
  have second : (Tree.mapping entries).field? "goal" = some goal := aimed
  show Tree.mapping [_, _] = _
  rw [first, second, Option.getD_some, Option.getD_some]

theorem toTree_of_ofItems {items : List Tree} (done : ofItems items = .ok m) :
    m.toTree = (Tree.list items).metricKept := by
  obtain ⟨name, named, done⟩ := bind_eq_ok.mp done
  obtain ⟨goal, aimed, done⟩ := bind_eq_ok.mp done
  obtain ⟨⟨⟩, short, done⟩ := bind_eq_ok.mp done
  obtain rfl := Except.ok.inj done
  have length := Record.noMoreThan_eq_ok.mp short
  rcases items with _ | ⟨t, _ | ⟨u, _ | ⟨v, rest⟩⟩⟩
  · cases named
  · cases aimed
  · obtain rfl := Record.text_eq_ok.mp named
    show _ = Tree.mapping [_, _]
    rw [Record.variantText_of_variant aimed]
    rfl
  · simp at length

/-- A metric that was read is written with the name and the goal that it has. -/
theorem toTree_of_ofTree {t : Tree} (done : ofTree t = .ok m) : m.toTree = t.metricKept := by
  cases t with
  | mapping entries =>
    obtain ⟨named, goal, aimed, reads⟩ := ofEntries_eq_ok done
    rw [metricKept_mapping named aimed, Record.variantText_of_variant reads]
    rfl
  | list items => exact toTree_of_ofItems done
  | _ => cases done

end Metric

namespace Specification

variable {entries : Mapping Tree} {s : Specification}

/-- The fields of a specification hold what is kept of the entries that it was read of. -/
structure ReadOf (entries : Mapping Tree) (s : Specification) : Prop where
  name : (entries.get? "name").bind (Tree.fieldKept "name") = s.name.map .str
  method : (entries.get? "method").bind (Tree.fieldKept "method") = some (.str s.method.name)
  metric : (entries.get? "metric").bind (Tree.fieldKept "metric") = s.metric.map Metric.toTree
  parameters : entries.get? parametersKey = some (.mapping s.parameters)
  extra : s.extra = entries.filter fun e => e.1 ∉ fieldNames

/-- An optional field is absent where it has no value, or null for one. -/
theorem present_of_fieldOr {α : Type} {key : String} {read : Record.Reader α} {value : Option α}
    (done : Record.fieldOr key (Record.optional read) none entries = .ok value) :
    (entries.get? key).bind Tree.present? = none ∧ value = none ∨
      ∃ t a, (entries.get? key).bind Tree.present? = some t ∧ read t = .ok a ∧ value = some a := by
  unfold Record.fieldOr at done
  split at done
  · next t found =>
    rw [found, Option.bind_some]
    rcases Record.optional_eq_ok done with ⟨rfl, absent⟩ | ⟨present, a, reads, there⟩
    · exact .inl ⟨rfl, absent⟩
    · exact .inr ⟨t, a, present, reads, there⟩
  · next absent =>
    rw [absent]
    exact .inl ⟨rfl, (Except.ok.inj done).symm⟩

theorem readOf_of_ofTree (done : ofTree (.mapping entries) = .ok s) : ReadOf entries s := by
  obtain ⟨-, -, done⟩ := bind_eq_ok.mp done
  obtain ⟨name, named, done⟩ := bind_eq_ok.mp done
  obtain ⟨method, searches, done⟩ := bind_eq_ok.mp done
  obtain ⟨metric, aims, done⟩ := bind_eq_ok.mp done
  obtain ⟨parameters, declares, done⟩ := bind_eq_ok.mp done
  obtain rfl := Except.ok.inj done
  obtain ⟨m, found, reads⟩ := Record.required_eq_ok searches
  obtain ⟨p, found', reads'⟩ := Record.required_eq_ok declares
  obtain rfl := Record.mapping_eq_ok.mp reads'
  refine ⟨?_, ?_, ?_, found', List.filter_congr fun e _ => by simp⟩
  · rcases present_of_fieldOr named with ⟨absent, rfl⟩ | ⟨t, a, present, reads, rfl⟩
    · exact absent
    · obtain rfl := Record.text_eq_ok.mp reads
      exact present
  · rw [found]
    exact congrArg some (Record.variantText_of_variant reads)
  · have kept : (entries.get? "metric").bind (Tree.fieldKept "metric")
        = ((entries.get? "metric").bind Tree.present?).map Tree.metricKept :=
      Option.map_bind.symm
    rcases present_of_fieldOr aims with ⟨absent, rfl⟩ | ⟨t, a, present, reads, rfl⟩
    · rw [kept, absent]
      rfl
    · rw [kept, present]
      exact congrArg some (Metric.toTree_of_ofTree reads).symm

/-- The entries of the sweep in standard form that a specification is written as. -/
def entriesOf (s : Specification) : Mapping Tree :=
  (s.name.toList.map fun name => ("name", Tree.str name))
    ++ [("method", .str s.method.name)]
    ++ (s.metric.toList.map fun metric => ("metric", metric.toTree))
    ++ [(parametersKey, .mapping s.parameters)]
    ++ s.extra

theorem get?_entriesOf (read : ReadOf entries s) (key : String) :
    Mapping.get? key (entriesOf s) = (entries.get? key).bind (Tree.fieldKept key) := by
  have optional : ∀ {α : Type} (name : String) (value : Option α) (write : α → Tree),
      Mapping.get? key (value.toList.map fun a => (name, write a))
        = if name = key then value.map write else none := by
    intro α name value write
    cases value <;> simp [Mapping.get?_cons]
  unfold entriesOf
  simp only [Mapping.get?_append, optional, Mapping.get?_cons, Mapping.get?_nil, read.extra,
    Mapping.get?_without]
  by_cases name : key = "name"
  · subst name
    rw [read.name]
    cases s.name <;> simp [fieldNames, parametersKey]
  by_cases method : key = "method"
  · subst method
    rw [read.method]
    simp [fieldNames, parametersKey]
  by_cases metric : key = "metric"
  · subst metric
    rw [read.metric]
    cases s.metric <;> simp [fieldNames, parametersKey]
  by_cases parameters : key = parametersKey
  · subst parameters
    rw [read.parameters]
    simp [fieldNames, parametersKey, Tree.fieldKept]
  · have unknown : key ∉ fieldNames := by simp [fieldNames, *]
    have field : Tree.fieldKept key = some := by
      funext t
      simp [Tree.fieldKept, *]
    rw [field, if_neg unknown]
    simp [Ne.symm name, Ne.symm method, Ne.symm metric, Ne.symm parameters]

theorem nodup_entriesOf (read : ReadOf entries s) (unique : (Mapping.keys entries).Nodup) :
    (Mapping.keys (entriesOf s)).Nodup := by
  have optional : ∀ {α : Type} (name : String) (value : Option α) (write : α → Tree),
      Mapping.keys (value.toList.map fun a => (name, write a))
        = if value.isSome then [name] else [] := by
    intro α name value write
    cases value <;> rfl
  have extra : (Mapping.keys s.extra).Nodup ∧ ∀ key ∈ Mapping.keys s.extra, key ∉ fieldNames := by
    rw [read.extra, Mapping.keys_without]
    exact ⟨unique.filter _, fun key member => by simpa using (List.mem_filter.mp member).2⟩
  have fields : ∀ name metric : Bool, (((if name then ["name"] else []) ++ ["method"]
      ++ (if metric then ["metric"] else [])) ++ [parametersKey]).Sublist fieldNames := by
    decide
  unfold entriesOf
  rw [Mapping.keys_append, Mapping.keys_append, Mapping.keys_append, Mapping.keys_append, optional,
    optional, List.nodup_append]
  have within := fields s.name.isSome s.metric.isSome
  refine ⟨within.nodup (by decide), extra.1, ?_⟩
  rintro key first _ second rfl
  exact extra.2 key second (within.subset first)

end Specification

namespace Tree

theorem sameValue_variantText {α : Type} {variants : List (String × α)} {t : Tree} {a : α}
    (read : Record.variant variants t = .ok a) :
    sameValue t.variantText t = true ↔ t.text?.isSome = true := by
  obtain ⟨name, -, text, rfl | rfl⟩ := Record.variant_eq_ok read
  · exact iff_of_true (text ▸ sameValue_str_iff.mpr rfl) rfl
  · refine iff_of_false (fun same => ?_) nofun
    rw [text, sameValue_str_iff] at same
    cases same

theorem sameValue_metricKept {t : Tree} (distinct : t.Distinct) {m : Metric}
    (read : Metric.ofTree t = .ok m) :
    sameValue t.metricKept t = true ↔ keptWhole "metric" t = true := by
  cases t with
  | mapping entries =>
    obtain ⟨named, goal, aimed, reads⟩ := Metric.ofEntries_eq_ok read
    have others := Mapping.length_eq_two_iff distinct.1 (show "name" ≠ "goal" by decide)
      (Mapping.mem_keys_of_get? named) (Mapping.mem_keys_of_get? aimed)
    have whole : keptWhole "metric" (.mapping entries) = true ↔
        (∀ key ∈ Mapping.keys entries, key ∈ ["name", "goal"]) ∧ goal.text?.isSome = true := by
      simp [keptWhole, entries?, aimed]
    rw [Metric.metricKept_mapping named aimed, sameValue_mapping_iff, whole, ← others,
      ← sameValue_variantText reads]
    rw [List.forall_mem_cons, List.forall_mem_singleton, named, aimed]
    refine and_congr eq_comm ⟨?_, fun alike => ⟨⟨_, rfl, sameValue_str_iff.mpr rfl⟩, _, rfl, alike⟩⟩
    rintro ⟨-, y, same, alike⟩
    exact Option.some.inj same ▸ alike
  | list items =>
    rw [← Metric.toTree_of_ofTree read]
    exact iff_of_false (by simp [Metric.toTree, sameValue]) (by simp [keptWhole, entries?])
  | _ => cases read

/-- What is kept of a value is the value exactly when it is kept whole. -/
theorem fieldKept_same {key : String} {t : Tree} (distinct : t.Distinct)
    (method : key = "method" → ∃ m, Record.method t = .ok m)
    (metric : key = "metric" → ∃ m, Record.optional Metric.ofTree t = .ok m) :
    (∃ u, fieldKept key t = some u ∧ sameValue u t = true) ↔ keptWhole key t = true := by
  have itself := sameValue_refl t distinct
  unfold fieldKept
  split
  · next name =>
    subst name
    cases t with
    | null => simp [present?, keptWhole]
    | _ => exact iff_of_true ⟨_, rfl, itself⟩ rfl
  · split
    · next name =>
      obtain ⟨m, read⟩ := method name
      subst name
      have same := sameValue_variantText read
      simpa [keptWhole] using same
    · split
      · next name =>
        obtain ⟨m, read⟩ := metric name
        subst name
        rcases Record.optional_eq_ok read with ⟨rfl, -⟩ | ⟨present, a, read, -⟩
        · simp [present?, keptWhole, entries?]
        · rw [present]
          simpa using sameValue_metricKept distinct read
      · exact iff_of_true ⟨t, rfl, itself⟩ (by simp [keptWhole, *])

end Tree

namespace Specification

variable {entries : Mapping Tree} {s : Specification}

/-- A sweep in standard form that is read as a specification is written with what is kept under each
key and nothing else, and it is written as it was read, the order of its keys aside, exactly when
every value in it is kept whole. -/
theorem toTree_restores_iff (distinct : (Tree.mapping entries).Distinct)
    (done : ofTree (.mapping entries) = .ok s) :
    ∃ written, s.toTree = .mapping written ∧ (Mapping.keys written).Nodup ∧
      (∀ key, Mapping.get? key written = (entries.get? key).bind (Tree.fieldKept key)) ∧
      (s.toTree.sameValue (.mapping entries) = true ↔
        ∀ e ∈ entries, Tree.keptWhole e.1 e.2 = true) := by
  have read := readOf_of_ofTree done
  have unique := nodup_entriesOf read distinct.1
  have values := get?_entriesOf read
  have same : ∀ e ∈ entries, (∃ u, Tree.fieldKept e.1 e.2 = some u ∧ u.sameValue e.2 = true) ↔
      Tree.keptWhole e.1 e.2 = true := by
    obtain ⟨⟨⟩, checked, -⟩ := bind_eq_ok.mp done
    rintro ⟨key, t⟩ member
    have fits := forM_eq_ok.mp checked (key, t) member
    refine Tree.fieldKept_same (Tree.distinctEntries_iff.mp distinct.2 _ member) ?_ ?_
    · rintro rfl
      obtain ⟨m, reads, -⟩ := map_eq_ok.mp fits
      exact ⟨m, reads⟩
    · rintro rfl
      obtain ⟨m, reads, -⟩ := map_eq_ok.mp fits
      exact ⟨m, reads⟩
  have writes : s.toTree = .mapping (entriesOf s) := rfl
  refine ⟨entriesOf s, writes, unique, values, ?_⟩
  rw [writes, Tree.sameValue_iff_get? unique distinct.1]
  constructor
  · intro restored e member
    have here := restored e.1
    rw [values, Mapping.get?_of_mem distinct.1 member, Option.bind_some] at here
    cases kept : Tree.fieldKept e.1 e.2 with
    | none =>
      rw [kept] at here
      cases here
    | some u =>
      rw [kept] at here
      cases here with
      | some alike => exact (same e member).mp ⟨u, kept, alike⟩
  · intro whole key
    rw [values]
    cases found : entries.get? key with
    | none => exact .none
    | some t =>
      have member := Mapping.mem_of_get? found
      obtain ⟨u, kept, alike⟩ := (same _ member).mpr (whole _ member)
      rw [Option.bind_some, kept]
      exact .some alike

section Loss

/-- A search whose metric is plain, with keys in an order of their own and one of the service's. -/
def plainSearch : Mapping Tree :=
  [("program", .str "train"),
    (parametersKey, .mapping [("lr", .mapping [("values", .list [.int 1])])]),
    ("metric", .mapping [("goal", .str "minimize"), ("name", .str "loss")]),
    ("method", .str "bayes")]

/-- A search whose metric has a target. -/
def targetSearch : Mapping Tree :=
  [("method", .str "bayes"), ("metric", .mapping [("name", .str "loss"), ("goal", .str "minimize"),
    ("target", .int 0)]), (parametersKey, .mapping [])]

/-- The plain search is written as it was read; of the other the target is lost. -/
theorem toTree_drops_target :
    ((Tree.mapping plainSearch).Distinct ∧ ∃ s, ofTree (.mapping plainSearch) = .ok s ∧
      s.toTree.sameValue (.mapping plainSearch) = true) ∧
    (Tree.mapping targetSearch).Distinct ∧ ∃ s, ofTree (.mapping targetSearch) = .ok s ∧
      s.toTree.field? "metric"
        = some (.mapping [("name", .str "loss"), ("goal", .str "minimize")]) ∧
      s.toTree.sameValue (.mapping targetSearch) = false := by
  have plainDistinct : (Tree.mapping plainSearch).Distinct := by decide
  have targetDistinct : (Tree.mapping targetSearch).Distinct := by decide
  have plainRead : ∃ s, ofTree (.mapping plainSearch) = .ok s := ⟨_, rfl⟩
  have targetRead : ∃ s, ofTree (.mapping targetSearch) = .ok s := ⟨_, rfl⟩
  obtain ⟨s, reads⟩ := plainRead
  obtain ⟨s', reads'⟩ := targetRead
  obtain ⟨-, -, -, -, restored⟩ := toTree_restores_iff plainDistinct reads
  obtain ⟨written, writes, -, values, restored'⟩ := toTree_restores_iff targetDistinct reads'
  refine ⟨⟨plainDistinct, s, reads, restored.mpr (by decide)⟩, targetDistinct, s', reads', ?_, ?_⟩
  · rw [writes]
    exact (values "metric").trans rfl
  · rw [← Bool.not_eq_true, restored']
    decide

end Loss

end Specification

end ConfigSweep
