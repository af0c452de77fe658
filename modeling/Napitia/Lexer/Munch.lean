import Napitia.Lexer.Progress

/-!
# Tokens by themselves

How far a token reaches is decided by its own characters where what follows it is whitespace
or a comment, and so is what it is. What a string or a character literal stands for is spelt
by what is between its quotes.
-/
namespace Napitia.Lexer

/-- What whitespace or a comment starts with. -/
def StartsGap (c : Char) : Prop := isWhitespace c = true ∨ c = '/'

/-- Nothing, or a text that starts with whitespace or a comment. -/
def Clear (behind : List Char) : Prop := ∀ c, behind.head? = some c → StartsGap c

theorem StartsGap.toNat {c : Char} (h : StartsGap c) :
    c.toNat ≤ 0x20 ∨ c.toNat = 0x2F ∨ 0x80 ≤ c.toNat := by
  rcases h with h | rfl
  · simp only [isWhitespace, Bool.or_eq_true, Bool.and_eq_true, decide_eq_true_eq] at h
    omega
  · exact Or.inr (Or.inl rfl)

theorem StartsGap.digitValue {c : Char} (h : StartsGap c) : digitValue c = none := by
  have hcode := h.toNat
  have hle {a b : Char} : a ≤ b ↔ a.toNat ≤ b.toNat := Iff.rfl
  unfold Lexer.digitValue
  simp only [hle]
  have h0 : '0'.toNat = 48 := rfl
  have h9 : '9'.toNat = 57 := rfl
  have ha : 'a'.toNat = 97 := rfl
  have hz : 'z'.toNat = 122 := rfl
  have hA : 'A'.toNat = 65 := rfl
  have hZ : 'Z'.toNat = 90 := rfl
  rw [if_neg (by omega), if_neg (by omega), if_neg (by omega)]

theorem StartsGap.ne {c d : Char} (h : StartsGap c) (hd : ¬(d.toNat ≤ 0x20 ∨ d.toNat = 0x2F ∨
    0x80 ≤ d.toNat)) : c ≠ d := by
  rintro rfl
  exact hd h.toNat

theorem StartsGap.inGroup {c : Char} (h : StartsGap c) (radix : ℕ) : inGroup radix c = false := by
  have hne : c ≠ '_' := h.ne (by decide)
  simp [Lexer.inGroup, isDigit, toDigit, h.digitValue, hne]

theorem StartsGap.isIdentRest {c : Char} (h : StartsGap c) : isIdentRest c = false := by
  have hcode := h.toNat
  have hle {a b : Char} : a ≤ b ↔ a.toNat ≤ b.toNat := Iff.rfl
  have ha : 'a'.toNat = 97 := rfl
  have hz : 'z'.toNat = 122 := rfl
  have hA : 'A'.toNat = 65 := rfl
  have hZ : 'Z'.toNat = 90 := rfl
  have hne : c ≠ '_' := h.ne (by decide)
  have halpha : isAsciiAlphabetic c = false := by
    simp only [isAsciiAlphabetic, hle, Bool.or_eq_false_iff, Bool.and_eq_false_iff,
      decide_eq_false_iff_not]
    omega
  simp [Lexer.isIdentRest, halpha, isDigit, toDigit, h.digitValue, hne]

theorem takeWhile_append {test : Char → Bool} {taken behind : List Char}
    (htaken : ∀ c ∈ taken, test c = true) (hbehind : ∀ c, behind.head? = some c → test c = false) :
    (taken ++ behind).takeWhile test = taken ∧ (taken ++ behind).dropWhile test = behind := by
  have hstop : behind.takeWhile test = [] ∧ behind.dropWhile test = behind := by
    cases behind with
    | nil => exact ⟨rfl, rfl⟩
    | cons c behind => simp [hbehind c rfl]
  rw [List.takeWhile_append_of_pos htaken, List.dropWhile_append_of_pos htaken, hstop.1, hstop.2,
    List.append_nil]
  exact ⟨rfl, rfl⟩

theorem head?_dropWhile {test : Char → Bool} {text : List Char} {c : Char}
    (h : (text.dropWhile test).head? = some c) : test c = false := by
  have hhead := List.head?_dropWhile_not test text
  rw [h] at hhead
  simpa using hhead

/-! ### Numbers -/

section
variable {text behind : List Char} {found : List Char × Bool × List Char}

theorem scanDigitGroup_append (radix : ℕ) (text : List Char)
    (hbehind : ∀ c, behind.head? = some c → inGroup radix c = false) :
    scanDigitGroup radix ((scanDigitGroup radix text).1 ++ behind) =
      ((scanDigitGroup radix text).1, (scanDigitGroup radix text).2.1, behind) := by
  have hall : ∀ c ∈ text.takeWhile (inGroup radix), inGroup radix c = true :=
    fun c hc => List.all_eq_true.mp List.all_takeWhile _ hc
  obtain ⟨htake, hdrop⟩ := takeWhile_append hall hbehind
  unfold scanDigitGroup
  dsimp only
  rw [htake, hdrop]

theorem takeWhile_inGroup {c : Char} (hc : isDigit 10 c = true) (text : List Char) :
    (c :: text).takeWhile (inGroup 10) = c :: text.takeWhile (inGroup 10) := by
  have hgroup : inGroup 10 c = true := by simp [inGroup, hc]
  simp [hgroup]

theorem scanFraction_cons {c : Char} (hc : isDigit 10 c = true) (text : List Char) :
    scanFraction ('.' :: c :: text) = some ('.' :: (scanDigitGroup 10 (c :: text)).1,
      (scanDigitGroup 10 (c :: text)).2.1, (scanDigitGroup 10 (c :: text)).2.2) := by
  simp [scanFraction, hc]

theorem scanFraction_append_eq (h : scanFraction text = some found)
    (hbehind : ∀ c, behind.head? = some c → inGroup 10 c = false) :
    scanFraction (found.1 ++ behind) = some (found.1, found.2.1, behind) ∧
      found.1.head? = some '.' := by
  unfold scanFraction at h
  split at h
  · rename_i c text
    split at h
    · rename_i hc
      cases h
      have happend : scanDigitGroup 10 ((c :: text).takeWhile (inGroup 10) ++ behind) =
          ((c :: text).takeWhile (inGroup 10), wellGrouped ((c :: text).takeWhile (inGroup 10)),
            behind) := scanDigitGroup_append 10 (c :: text) hbehind
      refine ⟨?_, rfl⟩
      dsimp only [scanDigitGroup]
      rw [takeWhile_inGroup hc] at happend ⊢
      rw [List.cons_append, List.cons_append, scanFraction_cons hc, ← List.cons_append, happend]
    · cases h
  · cases h

theorem scanFraction_eq_none (h : text.head? ≠ some '.') : scanFraction text = none := by
  unfold scanFraction
  split
  · simp at h
  · rfl

theorem scanSign_cons {d : Char} (hplus : d ≠ '+') (hminus : d ≠ '-') (text : List Char) :
    scanSign (d :: text) = ([], d :: text) := by
  unfold scanSign
  split
  · rename_i heq
    exact absurd (List.cons.inj heq).1 hplus
  · rename_i heq
    exact absurd (List.cons.inj heq).1 hminus
  · rfl

theorem scanSign_append_eq {c : Char} {digits : List Char} (text behind : List Char)
    (hdigits : (scanSign text).2 = c :: digits) (hc : isDigit 10 c = true) :
    scanSign ((scanSign text).1 ++ c :: behind) = ((scanSign text).1, c :: behind) := by
  cases text with
  | nil => cases hdigits
  | cons d text =>
    by_cases hplus : d = '+'
    · subst hplus
      rfl
    · by_cases hminus : d = '-'
      · subst hminus
        rfl
      · rw [scanSign_cons hplus hminus] at hdigits ⊢
        obtain ⟨rfl, -⟩ := List.cons.inj hdigits
        exact scanSign_cons hplus hminus behind

theorem scanExponent_append_eq (h : scanExponent text = some found)
    (hbehind : ∀ c, behind.head? = some c → inGroup 10 c = false) :
    scanExponent (found.1 ++ behind) = some (found.1, found.2.1, behind) ∧
      ∃ c, found.1.head? = some c ∧ (c = 'e' ∨ c = 'E') := by
  cases text with
  | nil => cases h
  | cons e text =>
    rw [scanExponent] at h
    split at h
    · rename_i he
      cases hdigits : (scanSign text).2 with
      | nil =>
        simp only [hdigits] at h
        cases h
      | cons c digits =>
        simp only [hdigits] at h
        split at h
        · rename_i hc
          cases h
          have happend : scanDigitGroup 10 ((c :: digits).takeWhile (inGroup 10) ++ behind) =
              ((c :: digits).takeWhile (inGroup 10),
                wellGrouped ((c :: digits).takeWhile (inGroup 10)), behind) :=
            scanDigitGroup_append 10 (c :: digits) hbehind
          refine ⟨?_, e, rfl, he⟩
          dsimp only [scanDigitGroup]
          rw [takeWhile_inGroup hc] at happend ⊢
          rw [List.cons_append, List.cons_append, List.append_assoc, List.cons_append, scanExponent,
            if_pos he, scanSign_append_eq text _ hdigits hc]
          dsimp only
          rw [if_pos hc, ← List.cons_append, happend]
          rfl
        · cases h
    · cases h

theorem scanExponent_eq_none (h : ∀ c, text.head? = some c → ¬(c = 'e' ∨ c = 'E')) :
    scanExponent text = none := by
  cases text with
  | nil => rfl
  | cons e text => rw [scanExponent, if_neg (h e rfl)]

theorem Clear.inGroup (h : Clear behind) (radix : ℕ) (c : Char) (hc : behind.head? = some c) :
    inGroup radix c = false := (h c hc).inGroup radix

theorem scanRadixInt_append (base : IntBase) {taken rest : List Char}
    (htext : text = taken ++ rest) (hrest : (scanRadixInt base text).2 = rest)
    (hclear : Clear behind) :
    scanRadixInt base (taken ++ behind) = ((scanRadixInt base text).1, behind) := by
  have htaken : taken = text.takeWhile (inGroup base.radix) := by
    have hsplit : text.takeWhile (inGroup base.radix) ++ (scanRadixInt base text).2 = text := by
      rw [scanRadixInt_rest, List.takeWhile_append_dropWhile]
    rw [hrest] at hsplit
    exact (List.append_cancel_right (htext.symm.trans hsplit.symm)).symm ▸ rfl
  have hgroup : scanDigitGroup base.radix (taken ++ behind) =
      (taken, wellGrouped taken, behind) := by
    rw [htaken]
    exact scanDigitGroup_append base.radix text (hclear.inGroup _)
  have hgroup' : scanDigitGroup base.radix text = (taken, wellGrouped taken, rest) := by
    rw [htaken, ← hrest, scanRadixInt_rest]
    rfl
  unfold scanRadixInt
  rw [hgroup, hgroup']
  dsimp only
  split
  · rfl
  · split <;> rfl

/-- What the parts of a decimal literal make. -/
def decimalToken (group fraction exponent : List Char) (ok : Bool) : NumberToken :=
  if !ok then
    .error "malformed numeric literal" "underscore separators must sit directly between digits"
  else if fraction ≠ [] ∨ exponent ≠ [] then
    .float (withoutUnderscores (group ++ fraction ++ exponent))
  else
    match fromStrRadix 10 (withoutUnderscores group) with
    | some value => .int value .decimal
    | none => tooLarge

theorem scanDecimal_of_parts {group fraction exponent r r' r'' : List Char}
    {ok fractionOk exponentOk : Bool} (hgroup : scanDigitGroup 10 text = (group, ok, r))
    (hfraction : (scanFraction r).getD ([], true, r) = (fraction, fractionOk, r'))
    (hexponent : (scanExponent r').getD ([], true, r') = (exponent, exponentOk, r'')) :
    scanDecimal text =
      (decimalToken group fraction exponent (ok && fractionOk && exponentOk), r'') := by
  unfold scanDecimal decimalToken
  rw [hgroup]
  dsimp only
  rw [hfraction]
  dsimp only
  rw [hexponent]
  dsimp only
  split
  · rfl
  · split
    · rfl
    · cases fromStrRadix 10 (withoutUnderscores group) <;> rfl

theorem getD_scanExponent (text : List Char) (hclear : Clear behind) :
    (scanExponent (((scanExponent text).getD ([], true, text)).1 ++ behind)).getD
        ([], true, ((scanExponent text).getD ([], true, text)).1 ++ behind) =
      (((scanExponent text).getD ([], true, text)).1,
        ((scanExponent text).getD ([], true, text)).2.1, behind) ∧
      ∀ c, (((scanExponent text).getD ([], true, text)).1 ++ behind).head? = some c →
        inGroup 10 c = false ∧ c ≠ '.' := by
  cases h : scanExponent text with
  | none =>
    refine ⟨?_, fun c hc => ⟨hclear.inGroup 10 c hc, (hclear c hc).ne (by decide)⟩⟩
    have hnone : scanExponent behind = none := by
      refine scanExponent_eq_none fun c hc => ?_
      rintro (rfl | rfl)
      · exact (hclear _ hc).ne (by decide) rfl
      · exact (hclear _ hc).ne (by decide) rfl
    simp [hnone]
  | some found =>
    obtain ⟨hfound, e, he, hletter⟩ := scanExponent_append_eq h (hclear.inGroup 10)
    refine ⟨by simp [hfound], fun c hc => ?_⟩
    have hce : c = e := by
      have hhead : (found.1 ++ behind).head? = some e := by simp [he]
      exact Option.some.inj (hc.symm.trans hhead)
    rw [hce]
    rcases hletter with rfl | rfl <;> decide

theorem getD_scanFraction (text : List Char)
    (hbehind : ∀ c, behind.head? = some c → inGroup 10 c = false ∧ c ≠ '.') :
    (scanFraction (((scanFraction text).getD ([], true, text)).1 ++ behind)).getD
        ([], true, ((scanFraction text).getD ([], true, text)).1 ++ behind) =
      (((scanFraction text).getD ([], true, text)).1,
        ((scanFraction text).getD ([], true, text)).2.1, behind) ∧
      ∀ c, (((scanFraction text).getD ([], true, text)).1 ++ behind).head? = some c →
        inGroup 10 c = false := by
  cases h : scanFraction text with
  | none =>
    refine ⟨?_, fun c hc => (hbehind c hc).1⟩
    have hnone : scanFraction behind = none :=
      scanFraction_eq_none fun hc => (hbehind _ hc).2 rfl
    simp [hnone]
  | some found =>
    obtain ⟨hfound, hpoint⟩ := scanFraction_append_eq h fun c hc => (hbehind c hc).1
    refine ⟨by simp [hfound], fun c hc => ?_⟩
    have hce : c = '.' := by
      have hhead : (found.1 ++ behind).head? = some '.' := by simp [hpoint]
      exact Option.some.inj (hc.symm.trans hhead)
    rw [hce]
    decide

theorem scanDecimal_append {taken rest : List Char} (htext : text = taken ++ rest)
    (hrest : (scanDecimal text).2 = rest) (hclear : Clear behind) :
    scanDecimal (taken ++ behind) = ((scanDecimal text).1, behind) := by
  obtain ⟨⟨group, ok, r⟩, hgroup⟩ : ∃ part, scanDigitGroup 10 text = part := ⟨_, rfl⟩
  obtain ⟨⟨fraction, fractionOk, r'⟩, hfraction⟩ :
      ∃ part, (scanFraction r).getD ([], true, r) = part := ⟨_, rfl⟩
  obtain ⟨⟨exponent, exponentOk, r''⟩, hexponent⟩ :
      ∃ part, (scanExponent r').getD ([], true, r') = part := ⟨_, rfl⟩
  have hdecimal := scanDecimal_of_parts hgroup hfraction hexponent
  have hsplit : text = group ++ r := by
    have hparts : (scanDigitGroup 10 text).1 ++ (scanDigitGroup 10 text).2.2 = text :=
      List.takeWhile_append_dropWhile
    rw [hgroup] at hparts
    exact hparts.symm
  have hsplit' : r = fraction ++ r' := by
    have hparts : r = ((scanFraction r).getD ([], true, r)).1 ++
        ((scanFraction r).getD ([], true, r)).2.2 := append_getD fun _ h => scanFraction_append h
    rwa [hfraction] at hparts
  have hsplit'' : r' = exponent ++ r'' := by
    have hparts : r' = ((scanExponent r').getD ([], true, r')).1 ++
        ((scanExponent r').getD ([], true, r')).2.2 := append_getD fun _ h => scanExponent_append h
    rwa [hexponent] at hparts
  have htaken : taken = group ++ (fraction ++ exponent) := by
    rw [hdecimal] at hrest
    have hall : taken ++ rest = group ++ (fraction ++ exponent) ++ rest := by
      rw [← htext, hsplit, hsplit', hsplit'', ← hrest]
      simp
    exact List.append_cancel_right hall
  obtain ⟨hexponent', hhead⟩ := getD_scanExponent r' hclear
  rw [hexponent] at hexponent' hhead
  obtain ⟨hfraction', hhead'⟩ := getD_scanFraction r hhead
  rw [hfraction] at hfraction' hhead'
  have hgroup' := scanDigitGroup_append 10 text hhead'
  rw [hgroup] at hgroup'
  rw [hdecimal, htaken, List.append_assoc, List.append_assoc]
  exact scanDecimal_of_parts hgroup' hfraction' hexponent'

theorem scanNumber_eq_scanDecimal
    (h : ∀ marker ∈ ['b', 'o', 'x'], ∀ digits, text ≠ '0' :: marker :: digits) :
    scanNumber text = scanDecimal text := by
  unfold scanNumber
  split
  · exact absurd rfl (h 'b' (by decide) _)
  · exact absurd rfl (h 'o' (by decide) _)
  · exact absurd rfl (h 'x' (by decide) _)
  · rfl

/-- A number is read alike before anything that cannot extend it. -/
theorem scanNumber_append {c : Char} {taken rest : List Char} (htext : c :: text = taken ++ rest)
    (hne : taken ≠ []) (hrest : (scanNumber (c :: text)).2 = rest) (hclear : Clear behind) :
    scanNumber (taken ++ behind) = ((scanNumber (c :: text)).1, behind) := by
  have hradix (base : IntBase) (marker : Char) {digits : List Char}
      (heq : c :: text = '0' :: marker :: digits) (hrest : (scanRadixInt base digits).2 = rest) :
      ∃ group, taken = '0' :: marker :: group ∧
        scanRadixInt base (group ++ behind) = ((scanRadixInt base digits).1, behind) := by
    have hdigits : digits = digits.takeWhile (inGroup base.radix) ++ rest := by
      rw [← hrest, scanRadixInt_rest, List.takeWhile_append_dropWhile]
    refine ⟨digits.takeWhile (inGroup base.radix), ?_, scanRadixInt_append base hdigits hrest hclear⟩
    have hall : taken ++ rest =
        '0' :: marker :: digits.takeWhile (inGroup base.radix) ++ rest := by
      rw [← htext, heq, List.cons_append, List.cons_append, ← hdigits]
    exact List.append_cancel_right hall
  by_cases hmarked : ∃ marker ∈ ['b', 'o', 'x'], ∃ digits, c :: text = '0' :: marker :: digits
  · obtain ⟨marker, hmarker, digits, heq⟩ := hmarked
    simp only [List.mem_cons, List.not_mem_nil, or_false] at hmarker
    rw [heq] at hrest ⊢
    rcases hmarker with rfl | rfl | rfl
    · obtain ⟨group, rfl, hgroup⟩ := hradix .binary 'b' heq hrest
      exact hgroup
    · obtain ⟨group, rfl, hgroup⟩ := hradix .octal 'o' heq hrest
      exact hgroup
    · obtain ⟨group, rfl, hgroup⟩ := hradix .hex 'x' heq hrest
      exact hgroup
  · have hdecimal : scanNumber (c :: text) = scanDecimal (c :: text) :=
      scanNumber_eq_scanDecimal fun marker hmarker digits heq =>
        hmarked ⟨marker, hmarker, digits, heq⟩
    rw [hdecimal] at hrest ⊢
    rw [← scanDecimal_append htext hrest hclear]
    refine scanNumber_eq_scanDecimal fun marker hmarker digits heq => ?_
    cases taken with
    | nil => exact hne rfl
    | cons first taken =>
      cases taken with
      | nil =>
        -- the marker is the start of what is clear
        have hbehind : behind = marker :: digits := (List.cons.inj heq).2
        have hstart : StartsGap marker := hclear marker (by rw [hbehind]; rfl)
        simp only [List.mem_cons, List.not_mem_nil, or_false] at hmarker
        rcases hmarker with rfl | rfl | rfl
        · exact hstart.ne (by decide) rfl
        · exact hstart.ne (by decide) rfl
        · exact hstart.ne (by decide) rfl
      | cons second taken =>
        obtain ⟨hfirst, hsecond⟩ := List.cons.inj heq
        obtain ⟨hsecond, -⟩ := List.cons.inj hsecond
        rw [hfirst, hsecond] at htext
        exact hmarked ⟨marker, hmarker, _, htext⟩

end

namespace Scanner

/-- A scanner that has read a text and reported nothing of it. -/
structure Takes (s s' : Scanner) (taken : List Char) : Prop extends s.Advances s' taken where
  quiet : s'.diagnostics = s.diagnostics

/-- A scan that comes to the same for the same text in front of anything clear. -/
def Settled (scan : ℕ → Scanner → TokenKind × Scanner) : Prop :=
  ∀ (s u : Scanner) (taken behind : List Char) (start start' : ℕ),
    s.Takes (scan start s).2 taken → u.text = taken ++ behind → Clear behind →
      (scan start' u).1 = (scan start s).1 ∧ u.Takes (scan start' u).2 taken

/-- A scan that moves forward. -/
def Forward (scan : ℕ → Scanner → TokenKind × Scanner) : Prop :=
  ∀ (start : ℕ) (s : Scanner), ∃ taken, s.Advances (scan start s).2 taken

section
variable {s u s' : Scanner} {taken behind : List Char} {start : ℕ}

theorem Takes.nil (s : Scanner) : s.Takes s [] := ⟨.nil s, rfl⟩

theorem takes_bump {c : Char} {rest : List Char} (h : s.text = c :: rest) : s.Takes s.bump [c] := by
  refine ⟨advances_bump h, ?_⟩
  unfold bump
  rw [h]

theorem diagnostics_bump (s : Scanner) : s.bump.diagnostics = s.diagnostics := by
  unfold bump
  split <;> rfl

theorem Takes.trans {s'' : Scanner} {taken' : List Char} (h : s.Takes s' taken)
    (h' : s'.Takes s'' taken') : s.Takes s'' (taken ++ taken') :=
  ⟨h.toAdvances.trans h'.toAdvances, h'.quiet.trans h.quiet⟩

theorem Takes.text_eq (h : s.Takes s' taken) (htext : s.text = taken ++ behind) :
    s'.text = behind := by
  have hsplit := h.text
  rw [htext] at hsplit
  exact (List.append_cancel_left hsplit).symm

theorem Takes.not_pushError {code message label : String}
    (hs : s'.diagnostics = s.diagnostics) :
    ¬s.Takes (s'.pushError start code message label) taken := by
  intro h
  have hquiet := h.quiet
  simp [pushError, hs] at hquiet

/-! ### Operators -/

theorem settled_const (kind : TokenKind) : Settled fun _ s => (kind, s) := by
  intro s u taken behind start start' hread htext hclear
  have hnil : taken = [] := List.append_left_eq_self.mp hread.text.symm
  rw [hnil]
  exact ⟨rfl, .nil u⟩

theorem forward_const (kind : TokenKind) : Forward fun _ s => (kind, s) :=
  fun _ s => ⟨[], .nil s⟩

/-- A scan that looks whether one character follows, which whitespace and comments do not start
with. -/
theorem settled_ifPeek {a : Char} (ha : ¬StartsGap a)
    {scan other : ℕ → Scanner → TokenKind × Scanner} (hscan : Settled scan)
    (hforward : Forward scan) (hother : Settled other) :
    Settled fun start s => if s.peek = some a then scan start s.bump else other start s := by
  intro s u taken behind start start' hread htext hclear
  dsimp only at hread ⊢
  by_cases hpeek : s.peek = some a
  · rw [if_pos hpeek] at hread ⊢
    obtain ⟨rest, hs⟩ : ∃ rest, s.text = a :: rest := List.head?_eq_some_iff.mp hpeek
    obtain ⟨more, hmore⟩ := hforward start s.bump
    have htaken : taken = a :: more := by
      have hboth := (takes_bump hs).toAdvances.trans hmore
      exact List.append_cancel_right (hread.text.symm.trans hboth.text)
    subst htaken
    have hquiet : s.bump.Takes (scan start s.bump).2 more :=
      ⟨hmore, hread.quiet.trans (diagnostics_bump s).symm⟩
    have hu : u.text = a :: (more ++ behind) := htext
    have hupeek : u.peek = some a := by rw [peek, hu]; rfl
    obtain ⟨hkind, htakes⟩ := hscan s.bump u.bump more behind start start' hquiet (text_bump hu) hclear
    rw [if_pos hupeek]
    exact ⟨hkind, (takes_bump hu).trans htakes⟩
  · rw [if_neg hpeek] at hread ⊢
    have hupeek : u.peek ≠ some a := by
      rw [peek, htext]
      cases taken with
      | nil => exact fun h => ha (hclear a h)
      | cons c taken =>
        intro h
        refine hpeek ?_
        rw [peek, hread.text]
        exact h
    rw [if_neg hupeek]
    exact hother s u taken behind start start' hread htext hclear

theorem forward_ifPeek {a : Char} {scan other : ℕ → Scanner → TokenKind × Scanner}
    (hscan : Forward scan) (hother : Forward other) :
    Forward fun start s => if s.peek = some a then scan start s.bump else other start s := by
  intro start s
  dsimp only
  by_cases hpeek : s.peek = some a
  · rw [if_pos hpeek]
    obtain ⟨taken, hbump⟩ := exists_advances_bump s
    obtain ⟨more, hmore⟩ := hscan start s.bump
    exact ⟨taken ++ more, hbump.trans hmore⟩
  · rw [if_neg hpeek]
    exact hother start s

theorem oneOr_cons (plain kind : TokenKind) (c : Char) (followed : List (Char × TokenKind))
    (s : Scanner) :
    oneOr plain ((c, kind) :: followed) s =
      if s.peek = some c then (kind, s.bump) else oneOr plain followed s := by
  by_cases hpeek : s.peek = some c
  · simp [oneOr, hpeek]
  · simp [oneOr, hpeek]

theorem settled_oneOr (plain : TokenKind) {followed : List (Char × TokenKind)}
    (h : ∀ next ∈ followed, ¬StartsGap next.1) :
    Settled (fun _ => oneOr plain followed) ∧ Forward (fun _ => oneOr plain followed) := by
  induction followed with
  | nil => exact ⟨settled_const plain, forward_const plain⟩
  | cons next followed ih =>
    obtain ⟨hsettled, hforward⟩ := ih fun next hnext => h next (List.mem_cons_of_mem _ hnext)
    have hgap := h next List.mem_cons_self
    have heq : (fun _ => oneOr plain (next :: followed)) = fun (start : ℕ) (s : Scanner) =>
        if s.peek = some next.1 then (fun (_ : ℕ) (s : Scanner) => (next.2, s)) start s.bump
        else (fun _ => oneOr plain followed) start s := by
      funext start s
      exact oneOr_cons plain next.2 next.1 followed s
    rw [heq]
    exact ⟨settled_ifPeek hgap (settled_const _) (forward_const _) hsettled,
      forward_ifPeek (forward_const _) hforward⟩

theorem not_startsGap {a : Char}
    (h : ¬(a.toNat ≤ 0x20 ∨ a.toNat = 0x2F ∨ 0x80 ≤ a.toNat)) : ¬StartsGap a :=
  fun hgap => h hgap.toNat

theorem settled_oneOrEq (plain withEq : TokenKind) :
    Settled (fun _ => oneOrEq plain withEq) ∧ Forward (fun _ => oneOrEq plain withEq) := by
  refine settled_oneOr plain fun next hnext => ?_
  rw [List.mem_singleton.mp hnext]
  change ¬StartsGap '='
  exact not_startsGap (by decide)

theorem settled_oneOr_pair (plain : TokenKind) {a b : Char} (ha : ¬StartsGap a) (hb : ¬StartsGap b)
    (first second : TokenKind) : Settled fun _ => oneOr plain [(a, first), (b, second)] := by
  refine (settled_oneOr plain fun next hnext => ?_).1
  rcases List.mem_pair.mp hnext with rfl | rfl
  · exact ha
  · exact hb

theorem settled_scanOperatorRest (c : Char) : Settled fun start => scanOperatorRest start c := by
  intro s u taken behind start start' hread htext hclear
  have heq : ¬StartsGap '=' := not_startsGap (by decide)
  have hgt : ¬StartsGap '>' := not_startsGap (by decide)
  have hlt : ¬StartsGap '<' := not_startsGap (by decide)
  have hamp : ¬StartsGap '&' := not_startsGap (by decide)
  have hpipe : ¬StartsGap '|' := not_startsGap (by decide)
  have hdot : ¬StartsGap '.' := not_startsGap (by decide)
  dsimp only at hread ⊢
  unfold scanOperatorRest at hread ⊢
  split at hread
  case h_7 => exact settled_oneOr_pair _ heq hgt _ _ s u _ _ start start' hread htext hclear
  case h_8 => exact settled_oneOr_pair _ heq hgt _ _ s u _ _ start start' hread htext hclear
  case h_10 =>
    exact settled_ifPeek heq (settled_const _) (forward_const _)
      (settled_ifPeek hlt (settled_oneOrEq _ _).1 (settled_oneOrEq _ _).2 (settled_const _))
      s u _ _ start start' hread htext hclear
  case h_11 =>
    exact settled_ifPeek heq (settled_const _) (forward_const _)
      (settled_ifPeek hgt (settled_oneOrEq _ _).1 (settled_oneOrEq _ _).2 (settled_const _))
      s u _ _ start start' hread htext hclear
  case h_12 => exact settled_oneOr_pair _ hamp heq _ _ s u _ _ start start' hread htext hclear
  case h_13 => exact settled_oneOr_pair _ hpipe heq _ _ s u _ _ start start' hread htext hclear
  case h_14 =>
    exact settled_ifPeek hdot (settled_oneOrEq _ _).1 (settled_oneOrEq _ _).2 (settled_const _)
      s u _ _ start start' hread htext hclear
  case h_25 => exact absurd hread (Takes.not_pushError rfl)
  -- an operator that an `=` may follow, or one that stands for itself
  all_goals first
    | exact (settled_oneOrEq _ _).1 s u _ _ start start' hread htext hclear
    | exact settled_const _ s u _ _ start start' hread htext hclear

end

end Scanner

end Napitia.Lexer
