import ConfigSweep.AxisKey
import Mathlib.Data.List.Infix
import Mathlib.Tactic.IntervalCases

/-!
# Cutting axis keys

A key that joins tokens without the separator is cut back into them from the left exactly when no
token before the last ends in a beginning of the separator that the joined text completes too
early, and from the right exactly when none behind the first begins with such an end of it. Tokens
of positions do neither, and different positions have different tokens.
-/

namespace ConfigSweep

namespace Text

theorem contains_iff {pattern : List Char} (filled : pattern ≠ []) (text : List Char) :
    contains pattern text = true ↔ pattern <:+: text := by
  induction text with
  | nil => simp [contains, filled]
  | cons c cs ih =>
    rw [contains, Bool.or_eq_true, ih, List.isPrefixOf_iff_prefix, List.infix_cons_iff]

/-- A text without the separator is one piece. -/
theorem pieces_of_absent {separator text : List Char} (absent : ¬ separator <:+: text) :
    pieces separator text = [text] := by
  unfold pieces
  induction text with
  | nil => rfl
  | cons c cs ih =>
    rw [List.infix_cons_iff, not_or, ← List.isPrefixOf_iff_prefix] at absent
    rw [piecesFrom, if_neg absent.1, ih absent.2]
    rfl

/-- The rest of an occurrence is skipped. -/
theorem piecesFrom_skip (separator occurrence text : List Char) :
    piecesFrom separator occurrence.length (occurrence ++ text) = piecesFrom separator 0 text := by
  induction occurrence with
  | nil => rfl
  | cons c cs ih =>
    rw [List.cons_append, List.length_cons, piecesFrom, ih]

theorem piecesFrom_ne_nil (separator : List Char) (skip : Nat) (text : List Char) :
    piecesFrom separator skip text ≠ [] := by
  induction text generalizing skip with
  | nil => simp [piecesFrom]
  | cons c cs ih =>
    cases skip with
    | succ skip => exact ih skip
    | zero =>
      rw [piecesFrom]
      split
      · simp
      · cases piecesFrom separator 0 cs <;> simp [extendFirst]

/-- A separator put behind the text is the first one: no occurrence starts inside the text. -/
def FoundBehind (separator text : List Char) : Prop :=
  ∀ w, w ≠ [] → w <:+ text → ¬ separator <+: w ++ separator

/-- What stands behind a separator is no part of an occurrence that starts before it. -/
theorem prefix_append_iff (separator w rest : List Char) :
    separator <+: w ++ (separator ++ rest) ↔ separator <+: w ++ separator := by
  rw [← List.append_assoc]
  constructor
  · intro early
    exact List.prefix_of_prefix_length_le early (List.prefix_append _ rest) (by simp)
  · exact fun early => early.trans (List.prefix_append _ rest)

/-- When the separator is found behind `first`, `first` is the first piece. -/
theorem pieces_append {separator first : List Char} (rest : List Char) (filled : separator ≠ [])
    (behind : FoundBehind separator first) :
    pieces separator (first ++ (separator ++ rest)) = first :: pieces separator rest := by
  unfold pieces
  induction first with
  | nil =>
    obtain ⟨c, cs, rfl⟩ := List.exists_cons_of_ne_nil filled
    have here : (c :: cs).isPrefixOf (c :: (cs ++ rest)) = true :=
      List.isPrefixOf_iff_prefix.mpr (List.prefix_append (c :: cs) rest)
    rw [List.nil_append, List.cons_append, piecesFrom, if_pos here, List.length_cons,
      Nat.add_sub_cancel, piecesFrom_skip]
  | cons c cs ih =>
    have away := behind (c :: cs) (by simp) List.suffix_rfl
    rw [← prefix_append_iff separator (c :: cs) rest, List.cons_append,
      ← List.isPrefixOf_iff_prefix] at away
    rw [List.cons_append, piecesFrom, if_neg away,
      ih fun w nonempty tail => behind w nonempty (tail.trans (List.suffix_cons c cs))]
    rfl

/-- When `first` is the first piece, the separator is found behind it. -/
theorem foundBehind_of_head {separator first rest : List Char}
    (cut : (pieces separator (first ++ (separator ++ rest))).head? = some first) :
    FoundBehind separator first := by
  unfold pieces at cut
  induction first with
  | nil =>
    intro w filled tail
    exact absurd (List.suffix_nil.mp tail) filled
  | cons c cs ih =>
    rw [List.cons_append, piecesFrom] at cut
    split at cut
    · simp at cut
    next away =>
    have later : (piecesFrom separator 0 (cs ++ (separator ++ rest))).head? = some cs := by
      obtain ⟨piece, others, cuts⟩ :=
        List.exists_cons_of_ne_nil (piecesFrom_ne_nil separator 0 (cs ++ (separator ++ rest)))
      rw [cuts] at cut ⊢
      simpa [extendFirst] using cut
    intro w filled tail
    rcases List.suffix_cons_iff.mp tail with rfl | inside
    · rwa [← prefix_append_iff separator _ rest, List.cons_append, ← List.isPrefixOf_iff_prefix]
    · exact ih later w filled inside

/-- Texts without the separator that are joined by it come back from the left exactly when the
separator is found behind all of them but the last. -/
theorem pieces_intercalate_iff {separator : List Char} {texts : List (List Char)}
    (filled : separator ≠ []) (some : texts ≠ []) (whole : ∀ t ∈ texts, ¬ separator <:+: t) :
    pieces separator (separator.intercalate texts) = texts ↔
      ∀ t ∈ texts.dropLast, FoundBehind separator t := by
  induction texts with
  | nil => exact absurd rfl some
  | cons first rest ih =>
    rw [List.forall_mem_cons] at whole
    cases rest with
    | nil => simp [pieces_of_absent whole.1]
    | cons second others =>
      have later := ih (by simp) whole.2
      rw [List.intercalate_cons_cons, List.append_assoc, List.dropLast_cons_cons,
        List.forall_mem_cons, ← later]
      constructor
      · intro cut
        have behind := foundBehind_of_head (by rw [cut]; rfl)
        rw [pieces_append _ filled behind] at cut
        exact ⟨behind, (List.cons.inj cut).2⟩
      · rintro ⟨behind, cut⟩
        rw [pieces_append _ filled behind, cut]

theorem intercalate_concat {separator last : List Char} {texts : List (List Char)}
    (some : texts ≠ []) : separator.intercalate (texts ++ [last])
      = separator.intercalate texts ++ (separator ++ last) := by
  induction texts with
  | nil => exact absurd rfl some
  | cons first rest ih =>
    cases rest with
    | nil => simp
    | cons second others =>
      have later := ih (by simp)
      rw [List.cons_append] at later
      rw [List.cons_append, List.cons_append, List.intercalate_cons_cons, later,
        List.intercalate_cons_cons, List.append_assoc (first ++ separator)]

theorem reverse_intercalate (separator : List Char) (texts : List (List Char)) :
    (separator.intercalate texts).reverse
      = separator.reverse.intercalate (texts.map List.reverse).reverse := by
  induction texts with
  | nil => rfl
  | cons first rest ih =>
    cases rest with
    | nil => simp
    | cons second others =>
      rw [List.intercalate_cons_cons, List.reverse_append, List.reverse_append, ih,
        List.map_cons (a := first), List.reverse_cons (a := first.reverse),
        intercalate_concat (by simp)]

theorem intercalate_extendFirst (separator : List Char) (c : Char) {texts : List (List Char)}
    (some : texts ≠ []) :
    separator.intercalate (extendFirst c texts) = c :: separator.intercalate texts := by
  obtain ⟨piece, others, rfl⟩ := List.exists_cons_of_ne_nil some
  cases others with
  | nil => simp [extendFirst]
  | cons second others => simp [extendFirst, List.intercalate_cons_cons]

/-- The pieces behind what is skipped join to the text behind it. -/
theorem intercalate_piecesFrom {separator : List Char} (filled : separator ≠ []) (skip : Nat)
    (text : List Char) :
    separator.intercalate (piecesFrom separator skip text) = text.drop skip := by
  induction text generalizing skip with
  | nil => simp [piecesFrom]
  | cons c cs ih =>
    cases skip with
    | succ skip => rw [piecesFrom, ih, List.drop_succ_cons]
    | zero =>
      rw [piecesFrom, List.drop_zero]
      split
      · next found =>
        obtain ⟨rest, whole⟩ := List.isPrefixOf_iff_prefix.mp found
        obtain ⟨d, ds, rfl⟩ := List.exists_cons_of_ne_nil filled
        rw [List.cons_append, List.cons.injEq] at whole
        obtain ⟨rfl, rfl⟩ := whole
        obtain ⟨piece, others, cuts⟩ := List.exists_cons_of_ne_nil
          (piecesFrom_ne_nil (d :: ds) ((d :: ds).length - 1) (ds ++ rest))
        rw [cuts, List.intercalate_cons_cons, ← cuts, ih]
        simp
      · rw [intercalate_extendFirst _ _ (piecesFrom_ne_nil separator 0 cs), ih, List.drop_zero]

/-- Cutting a text from the left loses nothing. -/
theorem pieces_inj {separator a b : List Char} (filled : separator ≠ [])
    (same : pieces separator a = pieces separator b) : a = b := by
  have joined := congrArg separator.intercalate same
  rwa [pieces, pieces, intercalate_piecesFrom filled, intercalate_piecesFrom filled, List.drop_zero,
    List.drop_zero] at joined

/-- Cutting a text from the right loses nothing. -/
theorem piecesFromRight_inj {separator a b : List Char} (filled : separator ≠ [])
    (same : piecesFromRight separator a = piecesFromRight separator b) : a = b := by
  have turned := List.map_injective_iff.mpr List.reverse_injective same
  exact List.reverse_injective (pieces_inj (List.reverse_ne_nil_iff.mpr filled) turned)

/-- They come back from the right exactly when, read backwards, the separator is found behind all
of them but the first. -/
theorem piecesFromRight_intercalate_iff {separator : List Char} {texts : List (List Char)}
    (filled : separator ≠ []) (some : texts ≠ []) (whole : ∀ t ∈ texts, ¬ separator <:+: t) :
    piecesFromRight separator (separator.intercalate texts) = texts.reverse ↔
      ∀ t ∈ texts.tail, FoundBehind separator.reverse t.reverse := by
  have backwards : pieces separator.reverse (separator.reverse.intercalate
      (texts.map List.reverse).reverse) = (texts.map List.reverse).reverse ↔
        ∀ t ∈ (texts.map List.reverse).reverse.dropLast, FoundBehind separator.reverse t := by
    refine pieces_intercalate_iff (by simpa using filled) (by simpa using some) fun t member => ?_
    obtain ⟨u, inside, rfl⟩ := List.mem_map.mp (List.mem_reverse.mp member)
    exact fun occurs => whole u inside (List.reverse_infix.mp occurs)
  rw [List.dropLast_reverse, ← List.map_tail] at backwards
  simp only [List.mem_reverse, List.forall_mem_map] at backwards
  rw [← backwards, piecesFromRight, reverse_intercalate]
  generalize pieces separator.reverse _ = cut
  rw [← List.map_reverse]
  constructor
  · intro same
    have undone := congrArg (List.map List.reverse) same
    simpa [List.map_map, Function.comp_def] using undone
  · rintro rfl
    simp [List.map_map]

/-- Whether the separator is found behind a text without it is decided by those beginnings of the
separator that it can complete itself. -/
theorem foundBehind_iff {separator text : List Char} (whole : ¬ separator <:+: text) :
    FoundBehind separator text ↔ ∀ n < separator.length, 0 < n →
      separator <+: separator.take n ++ separator → ¬ separator.take n <:+ text := by
  constructor
  · intro behind n short filled completes tail
    refine behind _ (fun empty => ?_) tail completes
    rcases List.take_eq_nil_iff.mp empty with none | none
    · omega
    · simp [none] at short
  · intro beginnings w filled tail early
    by_cases long : separator.length ≤ w.length
    · have inside := List.prefix_of_prefix_length_le early (List.prefix_append w _) long
      exact whole (inside.isInfix.trans tail.isInfix)
    · have short : w <+: separator :=
        List.prefix_of_prefix_length_le (List.prefix_append w _) early (by omega)
      have cut := List.prefix_iff_eq_take.mp short
      refine beginnings w.length (by omega) (List.length_pos_iff.mpr filled) ?_ ?_
      · rwa [← cut]
      · rwa [← cut]

end Text

namespace AxisKey

/-- The key does not end in a beginning of the separator that overlaps the separator's end. -/
def EndsClear (key : String) : Prop :=
  ¬ "__SEP".toList <:+ key.toList ∧ ¬ "__SEP_".toList <:+ key.toList

instance (key : String) : Decidable (EndsClear key) :=
  inferInstanceAs (Decidable (¬ _ ∧ ¬ _))

/-- A token that can be cut off again: the separator is not in it, and it ends clear. -/
structure Cuttable (token : String) : Prop where
  whole : ¬ separator.toList <:+: token.toList
  clear : EndsClear token

theorem separator_toList : separator.toList = ['_', '_', 'S', 'E', 'P', '_', '_'] := by decide

/-- The key does not begin with an end of the separator that overlaps the separator's beginning. -/
def StartsClear (key : String) : Prop :=
  ¬ "SEP__".toList <+: key.toList ∧ ¬ "_SEP__".toList <+: key.toList

instance (key : String) : Decidable (StartsClear key) :=
  inferInstanceAs (Decidable (¬ _ ∧ ¬ _))

/-- All tokens but the last end clear. -/
def LeftClear (path : Path) : Prop :=
  ∀ step ∈ path.dropLast, EndsClear step.token

/-- All tokens but the first start clear. -/
def RightClear (path : Path) : Prop :=
  ∀ step ∈ path.tail, StartsClear step.token

instance (path : Path) : Decidable (LeftClear path) :=
  inferInstanceAs (Decidable (∀ step ∈ path.dropLast, _))

instance (path : Path) : Decidable (RightClear path) :=
  inferInstanceAs (Decidable (∀ step ∈ path.tail, _))

/-- Only two beginnings of the separator are completed by the separator itself. -/
theorem foundBehind_iff_endsClear {token : String} (whole : ¬ separator.toList <:+: token.toList) :
    Text.FoundBehind separator.toList token.toList ↔ EndsClear token := by
  rw [Text.foundBehind_iff whole, separator_toList]
  constructor
  · exact fun beginnings => ⟨beginnings 5 (by decide) (by decide) (by decide),
      beginnings 6 (by decide) (by decide) (by decide)⟩
  · rintro ⟨noSep, noSepLine⟩ n short filled completes tail
    have bound : n < 7 := short
    interval_cases n
    · exact absurd completes (by decide)
    · exact absurd completes (by decide)
    · exact absurd completes (by decide)
    · exact absurd completes (by decide)
    · exact noSep tail
    · exact noSepLine tail

theorem foundBehind_reverse_iff_startsClear {token : String}
    (whole : ¬ separator.toList <:+: token.toList) :
    Text.FoundBehind separator.toList.reverse token.toList.reverse ↔ StartsClear token := by
  rw [Text.foundBehind_iff fun occurs => whole (List.reverse_infix.mp occurs), separator_toList]
  constructor
  · intro beginnings
    constructor
    · intro start
      exact beginnings 5 (by decide) (by decide) (by decide) (List.reverse_suffix.mpr start)
    · intro start
      exact beginnings 6 (by decide) (by decide) (by decide) (List.reverse_suffix.mpr start)
  · rintro ⟨noSep, noSepLine⟩ n short filled completes tail
    have bound : n < 7 := short
    interval_cases n
    · exact absurd completes (by decide)
    · exact absurd completes (by decide)
    · exact absurd completes (by decide)
    · exact absurd completes (by decide)
    · exact noSep (List.reverse_suffix.mp tail)
    · exact noSepLine (List.reverse_suffix.mp tail)

/-- A token without the letter that only the separator has can be cut off. -/
theorem cuttable_of_not_mem {token : String} (absent : 'S' ∉ token.toList) : Cuttable token where
  whole := fun inside => absent (inside.subset (by decide))
  clear := ⟨fun atEnd => absent (atEnd.subset (by decide)),
    fun atEnd => absent (atEnd.subset (by decide))⟩

@[simp] theorem under_text (parent : Step) (key : AxisKey) :
    (key.under parent).text = parent.token ++ separator ++ key.text := rfl

@[simp] theorem ofSteps_singleton (step : Step) : (ofSteps [step]).text = step.token := rfl

/-- Putting a step in front of a path puts its token in front of the key. -/
theorem ofSteps_cons (step : Step) {path : Path} (below : path ≠ []) :
    ofSteps (step :: path) = (ofSteps path).under step := by
  obtain ⟨next, rest, rfl⟩ := List.exists_cons_of_ne_nil below
  have joined : (ofSteps (step :: next :: rest)).text
      = step.token ++ separator ++ (ofSteps (next :: rest)).text := by
    simp [ofSteps, String.intercalate_cons_cons, String.append_assoc]
  exact congrArg AxisKey.mk joined

theorem text_ofSteps (path : Path) :
    (ofSteps path).text.toList
      = separator.toList.intercalate ((path.map Step.token).map String.toList) :=
  String.toList_intercalate

theorem map_ofList_eq_iff {texts : List (List Char)} {tokens : List String} :
    texts.map String.ofList = tokens ↔ texts = tokens.map String.toList := by
  constructor
  · rintro rfl
    simp [List.map_map, Function.comp_def]
  · rintro rfl
    simp [List.map_map, Function.comp_def]

/-- Different keys have different tokens. -/
theorem tokens_inj {a b : AxisKey} (same : a.tokens = b.tokens) : a = b := by
  have pieces := List.map_injective_iff.mpr (fun _ _ => String.ofList_injective) same
  have texts := String.toList_inj.mp (Text.pieces_inj (by decide) pieces)
  exact congrArg AxisKey.mk texts

/-- Cut from the right, they have different tokens as well. -/
theorem tokensFromRight_inj {a b : AxisKey} (same : a.tokensFromRight = b.tokensFromRight) :
    a = b := by
  have pieces := List.map_injective_iff.mpr (fun _ _ => String.ofList_injective) same
  have texts := String.toList_inj.mp (Text.piecesFromRight_inj (by decide) pieces)
  exact congrArg AxisKey.mk texts

section Joined

variable {path : Path} (below : path ≠ [])
  (whole : ∀ step ∈ path, ¬ separator.toList <:+: step.token.toList)

include below whole

/-- From the left, a key comes apart into the joined tokens exactly when all but the last end
clear. -/
theorem tokens_ofSteps_iff : (ofSteps path).tokens = path.map Step.token ↔ LeftClear path := by
  rw [tokens, map_ofList_eq_iff, text_ofSteps,
    Text.pieces_intercalate_iff (by decide) (by simpa using below) (by simpa using whole),
    List.map_map, ← List.map_dropLast, List.forall_mem_map]
  exact forall₂_congr fun step member =>
    foundBehind_iff_endsClear (whole step (List.dropLast_subset _ member))

/-- From the right, it does exactly when all but the first start clear. -/
theorem tokensFromRight_ofSteps_iff :
    (ofSteps path).tokensFromRight = (path.map Step.token).reverse ↔ RightClear path := by
  rw [tokensFromRight, map_ofList_eq_iff, text_ofSteps, List.map_reverse,
    Text.piecesFromRight_intercalate_iff (by decide) (by simpa using below) (by simpa using whole),
    List.map_map, ← List.map_tail, List.forall_mem_map]
  exact forall₂_congr fun step member =>
    foundBehind_reverse_iff_startsClear (whole step (List.mem_of_mem_tail member))

end Joined

/-- The tokens of a joined key are those that were joined. -/
theorem tokens_ofSteps {path : Path} (below : path ≠ [])
    (cuttable : ∀ step ∈ path, Cuttable step.token) :
    (ofSteps path).tokens = path.map Step.token :=
  (tokens_ofSteps_iff below fun step member => (cuttable step member).whole).mpr
    fun step member => (cuttable step (List.dropLast_subset _ member)).clear

/-- Joining cuttable tokens loses nothing. -/
theorem ofSteps_inj {p q : Path} (pBelow : p ≠ []) (qBelow : q ≠ [])
    (pCuttable : ∀ step ∈ p, Cuttable step.token) (qCuttable : ∀ step ∈ q, Cuttable step.token)
    (same : ofSteps p = ofSteps q) : p.map Step.token = q.map Step.token := by
  rw [← tokens_ofSteps pBelow pCuttable, ← tokens_ofSteps qBelow qCuttable, same]

end AxisKey

namespace Position

theorem token_toList (position : Nat) :
    (token position).toList = stem.toList ++ Nat.toDigits 10 position := by
  simp [token]

theorem valueOf_toDigits (position : Nat) : valueOf (Nat.toDigits 10 position) = position := by
  have folded : ∀ (digits : List Char) (start : Nat),
      digits.foldl (fun n c => n * 10 + (c.toNat - 48)) start
        = Nat.ofDigitChars 10 digits start := by
    intro digits
    induction digits with
    | nil => intro start; rfl
    | cons c cs ih =>
      intro start
      rw [List.foldl_cons, ih, Nat.ofDigitChars_cons, Nat.mul_comm]
      rfl
  rw [valueOf, folded, Nat.ofDigitChars_ten_toDigits]

theorem token_inj {p q : Nat} (same : token p = token q) : p = q := by
  have digits := congrArg String.toList same
  rw [token_toList, token_toList, List.append_cancel_left_eq] at digits
  rw [← valueOf_toDigits p, digits, valueOf_toDigits]

theorem cuttable_token (position : Nat) : AxisKey.Cuttable (token position) := by
  refine AxisKey.cuttable_of_not_mem fun member => ?_
  rw [token_toList, List.mem_append] at member
  rcases member with inStem | inDigits
  · exact absurd inStem (by decide)
  · have digit := Nat.isDigit_of_mem_toDigits (by decide) (by decide) inDigits
    exact absurd digit (by decide)

/-- A token is read back as its position, if that fits a word. -/
theorem ofToken?_token {position : Nat} (fits : position < Word.bound) :
    ofToken? (token position) = some position := by
  have dropped : Text.dropStem? stem.toList (token position).toList
      = some (Nat.toDigits 10 position) := by
    rw [token_toList, Text.dropStem?, if_pos (List.isPrefixOf_iff_prefix.mpr
      (List.prefix_append _ _)), List.drop_left]
  have digits : ∀ c ∈ Nat.toDigits 10 position, c.isDigit = true := fun c member =>
    Nat.isDigit_of_mem_toDigits (by decide) (by decide) member
  rw [ofToken?, dropped]
  simpa [Nat.toDigits_ne_nil, valueOf_toDigits, fits] using digits

end Position

end ConfigSweep
