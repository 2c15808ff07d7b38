import Mathlib.Data.String.Basic

/-!
# The order of texts

Texts are ordered by the code points of their characters. This is the order of the bytes that
encode them: of two characters, the lower one has the lower byte where their encodings part.
-/

namespace ConfigSweep.Text

/-- The bytes of a text in UTF-8. -/
def bytes (text : String) : List UInt8 :=
  text.toByteArray.data.toList

theorem bytes_eq (text : String) : bytes text = text.toList.flatMap String.utf8EncodeChar := by
  unfold bytes
  rw [← String.utf8Encode_toList, List.utf8Encode]
  simp

/-- The first byte in which the sequences part is lower on the left. -/
inductive PartsBelow : List UInt8 → List UInt8 → Prop where
  | here {a b : UInt8} {as bs : List UInt8} (lower : a < b) : PartsBelow (a :: as) (b :: bs)
  | later {a : UInt8} {as bs : List UInt8} (below : PartsBelow as bs) :
    PartsBelow (a :: as) (a :: bs)

namespace PartsBelow

theorem append_lt {as bs : List UInt8} (below : PartsBelow as bs) (cs ds : List UInt8) :
    as ++ cs < bs ++ ds := by
  induction below with
  | here lower => exact List.Lex.rel lower
  | later below ih => exact List.Lex.cons ih

theorem ofNat {m n : Nat} (less : m < n) (fits : n < 256) (as bs : List UInt8) :
    PartsBelow (UInt8.ofNat m :: as) (UInt8.ofNat n :: bs) := by
  refine .here (UInt8.lt_iff_toNat_lt.mpr ?_)
  rw [UInt8.toNat_ofNat', UInt8.toNat_ofNat']
  omega

/-- The sequences part in their first bytes, or these are the same. -/
theorem ofNat_or {m n : Nat} {as bs : List UInt8} (fits : n < 256)
    (below : m < n ∨ m = n ∧ PartsBelow as bs) :
    PartsBelow (UInt8.ofNat m :: as) (UInt8.ofNat n :: bs) := by
  rcases below with less | ⟨rfl, below⟩
  · exact ofNat less fits as bs
  · exact .later below

end PartsBelow

/-- Of two characters, the lower one is encoded below the other. -/
theorem partsBelow_utf8EncodeChar {c d : Char} (less : c < d) :
    PartsBelow (String.utf8EncodeChar c) (String.utf8EncodeChar d) := by
  have lower : c.val.toNat < d.val.toNat := less
  have bound : d.val.toNat < 1114112 := by
    rcases d.valid with low | ⟨-, high⟩ <;> omega
  unfold String.utf8EncodeChar
  generalize c.val.toNat = v at lower ⊢
  generalize d.val.toNat = w at lower bound ⊢
  dsimp only
  split
  · -- one byte, against any number of them
    split
    · exact .ofNat lower (by omega) _ _
    · split
      · exact .ofNat (by omega) (by omega) _ _
      · split <;> exact .ofNat (by omega) (by omega) _ _
  · rw [if_neg (by omega : ¬ w ≤ 127)]
    have leads : v / 64 < w / 64 ∨ v / 64 = w / 64 ∧ v % 64 < w % 64 := by omega
    split
    · split
      · refine .ofNat_or (by omega) (leads.imp (by omega) fun same => ⟨by omega, ?_⟩)
        exact .ofNat (by omega) (by omega) _ _
      · split <;> exact .ofNat (by omega) (by omega) _ _
    · rw [if_neg (by omega : ¬ w ≤ 2047)]
      have middles : v / 4096 < w / 4096 ∨
          v / 4096 = w / 4096 ∧ (v / 64 % 64 < w / 64 % 64 ∨ v / 64 = w / 64 ∧ v % 64 < w % 64) := by
        omega
      split
      · split
        · refine .ofNat_or (by omega) (middles.imp (by omega) fun same => ⟨by omega, ?_⟩)
          refine .ofNat_or (by omega) (same.2.imp (by omega) fun last => ⟨by omega, ?_⟩)
          exact .ofNat (by omega) (by omega) _ _
        · exact .ofNat (by omega) (by omega) _ _
      · rw [if_neg (by omega : ¬ w ≤ 65535)]
        have upper : v / 262144 < w / 262144 ∨ v / 262144 = w / 262144 ∧
            (v / 4096 % 64 < w / 4096 % 64 ∨ v / 4096 = w / 4096 ∧
              (v / 64 % 64 < w / 64 % 64 ∨ v / 64 = w / 64 ∧ v % 64 < w % 64)) := by
          omega
        refine .ofNat_or (by omega) (upper.imp (by omega) fun same => ⟨by omega, ?_⟩)
        refine .ofNat_or (by omega) (same.2.imp (by omega) fun same => ⟨by omega, ?_⟩)
        refine .ofNat_or (by omega) (same.2.imp (by omega) fun last => ⟨by omega, ?_⟩)
        exact .ofNat (by omega) (by omega) _ _

theorem flatMap_utf8EncodeChar_lt {cs ds : List Char} (less : List.Lex (· < ·) cs ds) :
    cs.flatMap String.utf8EncodeChar < ds.flatMap String.utf8EncodeChar := by
  induction less with
  | @nil d ds =>
    rw [List.flatMap_nil, List.flatMap_cons]
    obtain ⟨first, more, encoded⟩ := List.exists_cons_of_ne_nil (String.utf8EncodeChar_ne_nil (c := d))
    rw [encoded]
    exact List.Lex.nil
  | rel lower =>
    rw [List.flatMap_cons, List.flatMap_cons]
    exact (partsBelow_utf8EncodeChar lower).append_lt _ _
  | cons rest ih =>
    rw [List.flatMap_cons, List.flatMap_cons]
    exact List.Lex.append_left _ ih _

/-- Texts are ordered as the bytes that encode them are. -/
theorem bytes_lt_iff {s t : String} : bytes s < bytes t ↔ s < t := by
  have upward : ∀ {s t : String}, s < t → bytes s < bytes t := by
    intro s t less
    rw [bytes_eq, bytes_eq]
    exact flatMap_utf8EncodeChar_lt (String.lt_iff_toList_lt.mp less)
  refine ⟨fun less => ?_, upward⟩
  rcases lt_trichotomy s t with below | rfl | above
  · exact below
  · exact absurd less (List.lt_irrefl _)
  · exact absurd (upward above) (List.lt_asymm less)

end ConfigSweep.Text
