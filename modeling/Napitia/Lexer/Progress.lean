import Napitia.Lexer.Scanner

/-!
# Every scan moves forward

Each of the scans takes a text off the front of what is left, never an empty one, and
moves the offset by the bytes of that text.
-/
namespace Napitia.Lexer

theorem byteLength_append (a b : List Char) : byteLength (a ++ b) = byteLength a + byteLength b := by
  simp [byteLength]

/-! ### Numbers -/

section
variable {text : List Char} {found : List Char × Bool × List Char}

theorem scanFraction_append (h : scanFraction text = some found) : text = found.1 ++ found.2.2 := by
  unfold scanFraction at h
  split at h
  · split at h
    · cases h
      exact congrArg ('.' :: ·) List.takeWhile_append_dropWhile.symm
    · cases h
  · cases h

theorem scanSign_append (text : List Char) : text = (scanSign text).1 ++ (scanSign text).2 := by
  unfold scanSign
  split <;> rfl

theorem scanExponent_append (h : scanExponent text = some found) :
    text = found.1 ++ found.2.2 := by
  cases text with
  | nil => cases h
  | cons e text =>
    rw [scanExponent] at h
    split at h
    · have hsign := scanSign_append text
      cases hdigits : (scanSign text).2 with
      | nil =>
        simp only [hdigits] at h
        cases h
      | cons c behind =>
        simp only [hdigits] at h
        split at h
        · cases h
          rw [hdigits] at hsign
          have hgroup : (c :: behind).takeWhile (inGroup 10) ++ (c :: behind).dropWhile (inGroup 10) =
              c :: behind := List.takeWhile_append_dropWhile
          simp only [scanDigitGroup, List.cons_append, List.append_assoc]
          rw [hgroup, ← hsign]
        · cases h
    · cases h

theorem append_getD {text : List Char} {part : Option (List Char × Bool × List Char)}
    (h : ∀ found, part = some found → text = found.1 ++ found.2.2) :
    text = (part.getD ([], true, text)).1 ++ (part.getD ([], true, text)).2.2 := by
  cases part with
  | none => rfl
  | some found => exact h found rfl

theorem scanRadixInt_rest (base : IntBase) (text : List Char) :
    (scanRadixInt base text).2 = text.dropWhile (inGroup base.radix) := by
  unfold scanRadixInt scanDigitGroup
  dsimp only
  split
  · rfl
  · split <;> rfl

theorem scanDecimal_rest (text : List Char) : ∃ taken,
    text = text.takeWhile (inGroup 10) ++ taken ++ (scanDecimal text).2 := by
  obtain ⟨behind, hbehind⟩ : ∃ behind, behind = text.dropWhile (inGroup 10) := ⟨_, rfl⟩
  obtain ⟨fraction, hfraction⟩ : ∃ part, part = (scanFraction behind).getD ([], true, behind) :=
    ⟨_, rfl⟩
  obtain ⟨exponent, hexponent⟩ :
      ∃ part, part = (scanExponent fraction.2.2).getD ([], true, fraction.2.2) := ⟨_, rfl⟩
  have hsplit : behind = fraction.1 ++ fraction.2.2 :=
    hfraction ▸ append_getD fun _ h => scanFraction_append h
  have hsplit' : fraction.2.2 = exponent.1 ++ exponent.2.2 :=
    hexponent ▸ append_getD fun _ h => scanExponent_append h
  have hrest : (scanDecimal text).2 = exponent.2.2 := by
    rw [hexponent, hfraction, hbehind]
    unfold scanDecimal scanDigitGroup
    dsimp only
    split
    · rfl
    · split
      · rfl
      · split <;> rfl
  refine ⟨fraction.1 ++ exponent.1, ?_⟩
  calc text = text.takeWhile (inGroup 10) ++ behind := by
        rw [hbehind, List.takeWhile_append_dropWhile]
    _ = text.takeWhile (inGroup 10) ++ (fraction.1 ++ (exponent.1 ++ exponent.2.2)) := by
        rw [← hsplit', ← hsplit]
    _ = text.takeWhile (inGroup 10) ++ (fraction.1 ++ exponent.1) ++ (scanDecimal text).2 := by
        rw [hrest, List.append_assoc, List.append_assoc]

/-- A number takes at least one character. -/
theorem scanNumber_rest {c : Char} {rest : List Char} (hc : isDigit 10 c = true) :
    ∃ taken, taken ≠ [] ∧ c :: rest = taken ++ (scanNumber (c :: rest)).2 := by
  have hradix : ∀ base text, ∃ taken, text = taken ++ (scanRadixInt base text).2 := by
    intro base text
    rw [scanRadixInt_rest]
    exact ⟨_, List.takeWhile_append_dropWhile.symm⟩
  unfold scanNumber
  split
  · rename_i text heq
    obtain ⟨taken, htaken⟩ := hradix .binary text
    exact ⟨'0' :: 'b' :: taken, List.cons_ne_nil _ _,
      heq.trans (congrArg ('0' :: 'b' :: ·) htaken)⟩
  · rename_i text heq
    obtain ⟨taken, htaken⟩ := hradix .octal text
    exact ⟨'0' :: 'o' :: taken, List.cons_ne_nil _ _,
      heq.trans (congrArg ('0' :: 'o' :: ·) htaken)⟩
  · rename_i text heq
    obtain ⟨taken, htaken⟩ := hradix .hex text
    exact ⟨'0' :: 'x' :: taken, List.cons_ne_nil _ _,
      heq.trans (congrArg ('0' :: 'x' :: ·) htaken)⟩
  · obtain ⟨taken, htaken⟩ := scanDecimal_rest (c :: rest)
    refine ⟨_, ?_, htaken⟩
    have hgroup : inGroup 10 c = true := by simp [inGroup, hc]
    simp [hgroup]

end

namespace Scanner

variable {s s' : Scanner} {c : Char} {rest : List Char} {start : ℕ}

theorem Advances.nil (s : Scanner) : s.Advances s [] := ⟨rfl, rfl⟩

theorem Progresses.advances {taken : List Char} {s'' : Scanner} (h : s.Progresses s')
    (h' : s'.Advances s'' taken) : s.Progresses s'' := by
  obtain ⟨first, hne, hadvances⟩ := h
  exact ⟨first ++ taken, by simp [hne], hadvances.trans h'⟩

theorem Progresses.trans {s'' : Scanner} (h : s.Progresses s') (h' : s'.Progresses s'') :
    s.Progresses s'' := by
  obtain ⟨_, -, hadvances⟩ := h'
  exact h.advances hadvances

theorem advances_bumpWhile (test : Char → Bool) (s : Scanner) :
    s.Advances (s.bumpWhile test) (s.text.takeWhile test) :=
  ⟨List.takeWhile_append_dropWhile.symm, rfl⟩

theorem exists_advances_bump (s : Scanner) : ∃ taken, s.Advances s.bump taken := by
  cases h : s.text with
  | nil =>
    refine ⟨[], ?_⟩
    unfold bump
    rw [h]
    exact .nil s
  | cons c rest => exact ⟨[c], advances_bump h⟩

theorem Progresses.bump' (h : s.Progresses s') : s.Progresses s'.bump := by
  obtain ⟨taken, hadvances⟩ := exists_advances_bump s'
  exact h.advances hadvances

theorem progresses_scanNumberToken (h : s.text = c :: rest) (hc : isDigit 10 c = true) :
    s.Progresses (scanNumberToken start s).2 := by
  have hscan : ∃ taken, taken ≠ [] ∧ c :: rest = taken ++ (scanNumber (c :: rest)).2 :=
    scanNumber_rest hc
  obtain ⟨taken, hne, htaken⟩ := hscan
  have hto : s.Progresses (s.bumpTo (scanNumber s.text).2) := by
    refine ⟨taken, hne, ?_, ?_⟩
    · rw [h]
      exact htaken
    · change s.pos + (byteLength s.text - byteLength (scanNumber s.text).2) = s.pos + _
      rw [h]
      conv_lhs => rw [htaken, byteLength_append]
      rw [← htaken, Nat.add_sub_cancel]
  unfold scanNumberToken
  dsimp only
  split
  · exact hto
  · exact hto
  · exact hto.pushError _ _ _ _

theorem progresses_scanIdent (h : s.text = c :: rest) (hc : isIdentRest c = true) :
    s.Progresses (scanIdent s).2 :=
  ⟨_, by simp [h, hc], advances_bumpWhile isIdentRest s⟩

theorem progresses_scanStringRest {t : Scanner} (value : List Char) (hs : t.Progresses s) :
    t.Progresses (scanStringRest start value s).2 := by
  fun_induction scanStringRest start value s with
  | case1 => exact hs.pushError _ _ _ _
  | case2 => exact hs.pushError _ _ _ _
  | case3 => exact hs.bump'
  | case4 value s rest escape d hd h _ _ ih => exact ih (hs.trans (progresses_scanEscape start h))
  | case5 value s rest escape hnone hend h => exact hs.trans (progresses_scanEscape start h)
  | case6 value s rest escape hnone hmore h _ _ ih =>
    exact ih (hs.trans (progresses_scanEscape start h))
  | case7 value s c rest h _ _ _ ih => exact ih hs.bump'

theorem progresses_scanRawString {t : Scanner} (hs : t.Progresses s) :
    t.Progresses (scanRawString start s).2 := by
  have hcontent := hs.bump'.advances (advances_bumpWhile (fun c => decide (c ≠ '"')) s.bump)
  unfold scanRawString
  dsimp only
  split
  · exact hcontent.pushError _ _ _ _
  · exact hcontent.bump'

theorem progresses_closeChar {t : Scanner} (value : Char) (hs : t.Progresses s) :
    t.Progresses (closeChar start value s).2 := by
  have hskipped := hs.advances (advances_bumpWhile (fun c => decide (c ≠ '\'' ∧ c ≠ '\n')) s)
  unfold closeChar
  dsimp only
  split
  · exact hs.bump'
  · refine Progresses.pushError ?_ _ _ _ _
    split
    · exact hskipped.bump'
    · exact hskipped

theorem progresses_scanChar (h : s.text = c :: rest) : s.Progresses (scanChar start s).2 := by
  have hs := progresses_bump h
  unfold scanChar
  cases hpeek : s.bump.text with
  | nil =>
    simp only [peek, hpeek, List.head?_nil]
    exact hs.pushError _ _ _ _
  | cons d rest' =>
    simp only [peek, hpeek, List.head?_cons]
    split
    · exact hs.bump'.pushError _ _ _ _
    · split
      · have hescape := hs.trans (progresses_scanEscape start hpeek)
        split
        · exact progresses_closeChar _ hescape
        · exact hescape
      · exact progresses_closeChar _ hs.bump'

theorem progresses_oneOr {t : Scanner} (plain : TokenKind) (followed : List (Char × TokenKind))
    (hs : t.Progresses s) : t.Progresses (oneOr plain followed s).2 := by
  unfold oneOr
  split
  · exact hs.bump'
  · exact hs

theorem progresses_scanOperatorRest {t : Scanner} (hs : t.Progresses s) :
    t.Progresses (scanOperatorRest start c s).2 := by
  have hone := fun plain followed => progresses_oneOr plain followed hs
  have htwo := fun plain followed => progresses_oneOr plain followed hs.bump'
  unfold scanOperatorRest oneOrEq
  split
  case h_10 | h_11 | h_14 => split_ifs <;> first | exact hs.bump' | exact htwo _ _ | exact hs
  case h_25 => exact hs.pushError _ _ _ _
  all_goals first | exact hone _ _ | exact hs

theorem progresses_scanToken (h : s.text = c :: rest) : s.Progresses (scanToken c s).2 := by
  have hs := progresses_bump h
  unfold scanToken
  split_ifs with hdigit hraw hident hquote hchar
  · exact progresses_scanNumberToken h hdigit
  · exact progresses_scanRawString hs
  · exact progresses_scanIdent h (by grind [isIdentRest])
  · exact progresses_scanStringRest _ hs
  · exact progresses_scanChar h
  · exact progresses_scanOperatorRest hs

end Scanner

end Napitia.Lexer
