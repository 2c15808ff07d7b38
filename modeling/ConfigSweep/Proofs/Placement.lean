import ConfigSweep.Axis.Placement
import ConfigSweep.Proofs.Mapping

/-!
# Values placed in turn

Placing values at token paths comes apart by first tokens: what ends up under a key depends only on
what was there and on the values whose tokens start with that key, and keys appear in the order in
which they are first used.
-/

namespace ConfigSweep

/-- Values with the tokens that lead to their places. -/
abbrev Placements := List (List String × Tree)

namespace Placements

/-- The placements below a key. -/
def behind (key : String) (ps : Placements) : Placements :=
  ps.filterMap fun p =>
    match p.1 with
    | [] => none
    | token :: rest => if token = key then some (rest, p.2) else none

/-- The first tokens, in order of use. -/
def firsts (ps : Placements) : List String :=
  ps.filterMap fun p => p.1.head?

theorem behind_cons (key token : String) (rest : List String) (value : Tree) (ps : Placements) :
    behind key ((token :: rest, value) :: ps)
      = if token = key then (rest, value) :: behind key ps else behind key ps := by
  unfold behind
  rw [List.filterMap_cons]
  by_cases same : token = key <;> simp [same]

theorem behind_eq_nil_iff {key : String} {ps : Placements} :
    behind key ps = [] ↔ key ∉ firsts ps := by
  induction ps with
  | nil => simp [behind, firsts]
  | cons p rest ih =>
    obtain ⟨tokens, value⟩ := p
    cases tokens with
    | nil => simpa [behind, firsts] using ih
    | cons token more =>
      rw [behind_cons]
      have first : firsts ((token :: more, value) :: rest) = token :: firsts rest := rfl
      rw [first, List.mem_cons, not_or]
      by_cases same : token = key
      · simp [same]
      · simp [same, Ne.symm same, ih]

end Placements

namespace Mapping

open Placements

/-- What placing a value makes of what is under the first token. -/
def placeBelow (value : Tree) : List String → Option Tree → Option Tree
  | [], _ => some value
  | token :: rest, none => (place? value (token :: rest) []).map .mapping
  | token :: rest, some (.mapping below) => (place? value (token :: rest) below).map .mapping
  | _ :: _, some _ => none

theorem place?_cons (value : Tree) (token : String) (rest : List String) (m : Mapping Tree) :
    place? value (token :: rest) m
      = (placeBelow value rest (m.get? token)).map fun t => m.insert token t := by
  cases rest with
  | nil => rfl
  | cons next rest =>
    rw [place?]
    cases m.get? token with
    | none => simp only [placeBelow, Option.map_map]; rfl
    | some there =>
      cases there with
      | mapping below => simp only [placeBelow, Option.map_map]; rfl
      | _ => rfl

/-- Places values in turn. -/
def placeEach : Placements → Mapping Tree → Option (Mapping Tree)
  | [], m => some m
  | p :: ps, m => (m.place? p.2 p.1).bind (placeEach ps)

/-- What placing values in turn makes of what is under a key that leads to all of them. -/
def placeEachBelow : Placements → Option Tree → Option (Option Tree)
  | [], there => some there
  | p :: ps, there => (placeBelow p.2 p.1 there).bind fun t => placeEachBelow ps (some t)

/-- Values can be placed when they can be placed below each of their first tokens. -/
theorem placeEach_spec {ps : Placements} {m : Mapping Tree} {slot : String → Option Tree}
    (filled : ∀ p ∈ ps, p.1 ≠ [])
    (succeeds : ∀ key, placeEachBelow (behind key ps) (m.get? key) = some (slot key)) :
    ∃ placed, placeEach ps m = some placed ∧ (∀ key, placed.get? key = slot key) ∧
      placed.keys = m.keys ++ ((firsts ps).filter (· ∉ m.keys)).eraseDups := by
  induction ps generalizing m with
  | nil =>
    refine ⟨m, rfl, fun key => ?_, by simp [firsts]⟩
    exact Option.some.inj (succeeds key)
  | cons p rest ih =>
    obtain ⟨tokens, value⟩ := p
    obtain ⟨token, more, rfl⟩ := List.exists_cons_of_ne_nil (filled (tokens, value) List.mem_cons_self)
    have here := succeeds token
    rw [behind_cons, if_pos rfl, placeEachBelow] at here
    obtain ⟨t, first, later⟩ := Option.bind_eq_some_iff.mp here
    have others : ∀ key, placeEachBelow (behind key rest) ((m.insert token t).get? key)
        = some (slot key) := by
      intro key
      rw [get?_insert]
      by_cases same : key = token
      · rw [if_pos same, same]
        exact later
      · rw [if_neg same, ← succeeds key, behind_cons, if_neg (Ne.symm same)]
    obtain ⟨placed, done, read, keys⟩ :=
      ih (fun p member => filled p (List.mem_cons_of_mem _ member)) others
    refine ⟨placed, ?_, read, ?_⟩
    · rw [placeEach, place?_cons]
      dsimp only at first
      rw [first]
      exact done
    · have heads : firsts ((token :: more, value) :: rest) = token :: firsts rest := rfl
      rw [keys, heads, keys_insert]
      by_cases known : token ∈ m.keys
      · rw [if_pos known, List.filter_cons_of_neg (by simpa using known)]
      · rw [if_neg known, List.filter_cons_of_pos (by simpa using known), List.eraseDups_cons,
          List.filter_filter, List.append_assoc, List.singleton_append]
        congr 3
        refine List.filter_congr fun key _ => ?_
        by_cases same : key = token <;> simp [same]

theorem placeEachBelow_mapping {ps : Placements} (filled : ∀ p ∈ ps, p.1 ≠ [])
    (below : Mapping Tree) :
    placeEachBelow ps (some (.mapping below)) = (placeEach ps below).map (some ∘ .mapping) := by
  induction ps generalizing below with
  | nil => rfl
  | cons p rest ih =>
    obtain ⟨tokens, value⟩ := p
    obtain ⟨token, more, rfl⟩ := List.exists_cons_of_ne_nil (filled (tokens, value) List.mem_cons_self)
    have later := ih fun p member => filled p (List.mem_cons_of_mem _ member)
    rw [placeEachBelow, placeEach, placeBelow]
    dsimp only
    cases place? value (token :: more) below with
    | none => rfl
    | some m => exact later m

/-- Values that all lead further are placed into a mapping that is made for them. -/
theorem placeEachBelow_none {ps : Placements} (filled : ∀ p ∈ ps, p.1 ≠ []) (nonempty : ps ≠ []) :
    placeEachBelow ps none = (placeEach ps []).map (some ∘ .mapping) := by
  obtain ⟨⟨tokens, value⟩, rest, rfl⟩ := List.exists_cons_of_ne_nil nonempty
  obtain ⟨token, more, rfl⟩ := List.exists_cons_of_ne_nil (filled (tokens, value) List.mem_cons_self)
  exact placeEachBelow_mapping filled []

end Mapping

namespace Tree

theorem placeAll_eq_ok {values : List (AxisKey × Tree)} {m placed : Mapping Tree}
    (done : Mapping.placeEach (values.map fun e => (e.1.tokens, e.2)) m = some placed) :
    placeAll values m = .ok (.mapping placed) := by
  induction values generalizing m with
  | nil =>
    obtain rfl := Option.some.inj done
    rfl
  | cons e rest ih =>
    rw [List.map_cons, Mapping.placeEach] at done
    obtain ⟨next, first, later⟩ := Option.bind_eq_some_iff.mp done
    rw [placeAll]
    dsimp only at first
    rw [first]
    exact ih later

end Tree

end ConfigSweep
