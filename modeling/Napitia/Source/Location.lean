import Napitia.Lib.Offsets
import Napitia.Lexer.Scanner

/-!
# Source files and the locations in them

A file keeps the offset at which each of its lines begins, and answers for a byte offset
with a line and a column that counts characters. Offsets are bytes of the text in UTF-8 and
are kept in 32 bits.
-/
namespace Napitia.Source
open Lexer

def asU32 (n : ℕ) : ℕ := n % 2 ^ 32

theorem asU32_of_lt {n : ℕ} (h : n < 2 ^ 32) : asU32 n = n := Nat.mod_eq_of_lt h

/-- The sum of two numbers of 32 bits: where it overflows, a build that checks its arithmetic
panics and any other one wraps around. -/
def addU32 (checked : Bool) (a b : ℕ) : Option ℕ :=
  if a + b < 2 ^ 32 then some (a + b) else if checked then none else some (asU32 (a + b))

theorem addU32_of_lt {checked : Bool} {a b : ℕ} (h : a + b < 2 ^ 32) :
    addU32 checked a b = some (a + b) := if_pos h

/-- Both start at one, and the column counts characters. -/
structure Location where
  line : ℕ
  column : ℕ
  deriving DecidableEq, Repr

def bytes (content : List Char) : List UInt8 := content.flatMap String.utf8EncodeChar

/-- The two sides of an offset that no character is across. -/
def splitAt (content : List Char) (offset : ℕ) : Option (List Char × List Char) :=
  Offsets.cut Char.utf8Size content offset

def isCharBoundary (content : List Char) (offset : ℕ) : Bool := (splitAt content offset).isSome

/-- What stands between two offsets, if each is a boundary and they are in order. -/
def slice (content : List Char) (start stop : ℕ) : Option (List Char) := do
  let (_, behind) ← splitAt content start
  if start ≤ stop then
    let (text, _) ← splitAt behind (stop - start)
    some text
  else none

/-- The offset itself where it is a boundary, else the nearest one before it. -/
def snap (content : List Char) : ℕ → ℕ
  | 0 => 0
  | offset + 1 =>
    if isCharBoundary content (offset + 1) then offset + 1 else snap content offset

/-- The line that an offset is on: one before where it would be put in. -/
def lineIndexOf (lineStarts : List ℕ) (offset : ℕ) : Option ℕ :=
  match Offsets.binarySearch lineStarts offset with
  | .ok i => some i
  | .error 0 => none
  | .error (i + 1) => some i

/-- It has no result where the source would panic. -/
def locate (checked : Bool) (content : List Char) (lineStarts : List ℕ) (offset : ℕ) :
    Option Location := do
  let len := asU32 (byteLength content)
  let offset := snap content (min offset len)
  let lineIndex ← lineIndexOf lineStarts offset
  let lineStart ← lineStarts[lineIndex]?
  let text ← slice content lineStart offset
  let column ← addU32 checked (asU32 text.length) 1
  let line ← addU32 checked (asU32 lineIndex) 1
  some ⟨line, column⟩

/-- The offset behind a line feed, unless the text ends there. -/
def lineStartAfter (len : ℕ) (byte : UInt8) (i : ℕ) : Option ℕ :=
  if byte = 10 then
    if asU32 (i + 1) < asU32 len then some (asU32 (i + 1)) else none
  else none

def computeLineStarts (content : List Char) : List ℕ :=
  0 :: (bytes content).zipIdx.filterMap fun (byte, i) => lineStartAfter (byteLength content) byte i

structure SourceFile where
  name : String
  content : List Char
  lineStarts : List ℕ
  deriving DecidableEq, Repr

namespace SourceFile

/-- The file of that name and content. -/
def new (name : String) (content : List Char) : SourceFile :=
  ⟨name, content, computeLineStarts content⟩

def len (file : SourceFile) : ℕ := asU32 (byteLength file.content)

def lineCount (file : SourceFile) : ℕ := asU32 file.lineStarts.length

def location (checked : Bool) (file : SourceFile) (offset : ℕ) : Option Location :=
  locate checked file.content file.lineStarts offset

/-- The bytes of a line, its terminator with them. -/
def lineSpan (file : SourceFile) : ℕ → Option Span
  | 0 => none
  | index + 1 => do
    let start ← file.lineStarts[index]?
    some ⟨start, file.lineStarts[index + 1]?.getD file.len⟩

end SourceFile

/-! ### Boundaries -/

section
variable {content : List Char}

theorem splitAt_eq_some {a b : List Char} {offset : ℕ} :
    splitAt content offset = some (a, b) ↔ content = a ++ b ∧ byteLength a = offset :=
  Offsets.cut_eq_some Char.utf8Size_pos

theorem isCharBoundary_iff {offset : ℕ} :
    isCharBoundary content offset ↔ ∃ a b, content = a ++ b ∧ byteLength a = offset := by
  rw [isCharBoundary, Option.isSome_iff_exists]
  refine ⟨?_, ?_⟩
  · rintro ⟨⟨a, b⟩, hsplit⟩
    exact ⟨a, b, splitAt_eq_some.mp hsplit⟩
  · rintro ⟨a, b, h⟩
    exact ⟨(a, b), splitAt_eq_some.mpr h⟩

theorem isCharBoundary_zero : isCharBoundary content 0 :=
  isCharBoundary_iff.mpr ⟨[], content, rfl, rfl⟩

theorem byteLength_append (a b : List Char) : byteLength (a ++ b) = byteLength a + byteLength b :=
  Offsets.extent_append _ a b

theorem isCharBoundary_le {offset : ℕ} (h : isCharBoundary content offset) :
    offset ≤ byteLength content := by
  obtain ⟨a, b, rfl, rfl⟩ := isCharBoundary_iff.mp h
  rw [byteLength_append]
  exact Nat.le_add_right _ _

theorem length_le_byteLength (text : List Char) : text.length ≤ byteLength text := by
  induction text with
  | nil => exact le_rfl
  | cons c text ih =>
    have hc : 0 < c.utf8Size := c.utf8Size_pos
    have hcons : byteLength (c :: text) = c.utf8Size + byteLength text :=
      Offsets.extent_cons _ c text
    rw [List.length_cons, hcons]
    omega

/-- The last boundary at or before an offset. -/
def IsNearest (content : List Char) (offset nearest : ℕ) : Prop :=
  IsGreatest {boundary | isCharBoundary content boundary ∧ boundary ≤ offset} nearest

theorem isNearest_snap (content : List Char) (offset : ℕ) :
    IsNearest content offset (snap content offset) := by
  induction offset with
  | zero => exact ⟨⟨isCharBoundary_zero, le_rfl⟩, fun boundary h => h.2⟩
  | succ offset ih =>
    rw [snap]
    split
    · next hboundary => exact ⟨⟨hboundary, le_rfl⟩, fun boundary h => h.2⟩
    · next hboundary =>
      refine ⟨⟨ih.1.1, ih.1.2.trans (Nat.le_succ _)⟩, fun boundary h => ih.2 ⟨h.1, ?_⟩⟩
      rcases Nat.le_succ_iff.mp h.2 with hle | rfl
      · exact hle
      · exact absurd h.1 hboundary

theorem isNearest_snap_min (content : List Char) (offset : ℕ) :
    IsNearest content offset (snap content (min offset (byteLength content))) := by
  obtain ⟨⟨hboundary, hle⟩, hgreatest⟩ :=
    isNearest_snap content (min offset (byteLength content))
  refine ⟨⟨hboundary, hle.trans (min_le_left _ _)⟩, fun boundary h => ?_⟩
  exact hgreatest ⟨h.1, le_min h.2 (isCharBoundary_le h.1)⟩

theorem slice_of_boundaries {start stop : ℕ} (hstart : isCharBoundary content start)
    (hstop : isCharBoundary content stop) (hle : start ≤ stop) :
    ∃ before text behind, content = before ++ (text ++ behind) ∧ byteLength before = start ∧
      byteLength before + byteLength text = stop ∧ slice content start stop = some text := by
  obtain ⟨before, rest, hcontent, hbefore⟩ := isCharBoundary_iff.mp hstart
  obtain ⟨front, behind, hcontent', hfront⟩ := isCharBoundary_iff.mp hstop
  obtain ⟨text, rfl⟩ := Offsets.cut_prefix Char.utf8Size_pos (hcontent.symm.trans hcontent')
    (hbefore.trans_le (hle.trans hfront.ge))
  rw [byteLength_append] at hfront
  rw [List.append_assoc] at hcontent'
  have hrest : rest = text ++ behind := List.append_cancel_left (hcontent.symm.trans hcontent')
  refine ⟨before, text, behind, hcontent', hbefore, hfront, ?_⟩
  have hfirst : splitAt content start = some (before, rest) :=
    splitAt_eq_some.mpr ⟨hcontent, hbefore⟩
  have hsecond : splitAt rest (stop - start) = some (text, behind) :=
    splitAt_eq_some.mpr ⟨hrest, by omega⟩
  simp only [slice, hfirst, Option.bind_eq_bind, Option.bind_some, if_pos hle, hsecond]

theorem length_lt_of_slice {start a b : ℕ} {text text' : List Char}
    (hstart : isCharBoundary content start) (ha : isCharBoundary content a)
    (hb : isCharBoundary content b) (hle : start ≤ a) (hab : a < b)
    (htext : slice content start a = some text) (htext' : slice content start b = some text') :
    text.length < text'.length := by
  obtain ⟨before, front, behind, hcontent, hbefore, hfront, hslice⟩ :=
    slice_of_boundaries hstart ha hle
  obtain ⟨before', front', behind', hcontent', hbefore', hfront', hslice'⟩ :=
    slice_of_boundaries hstart hb (hle.trans hab.le)
  obtain rfl := Option.some.inj (hslice.symm.trans htext)
  obtain rfl := Option.some.inj (hslice'.symm.trans htext')
  have hsides := Option.some.inj ((splitAt_eq_some.mpr ⟨hcontent, hbefore⟩).symm.trans
    (splitAt_eq_some.mpr ⟨hcontent', hbefore'⟩))
  obtain ⟨rfl, hrest⟩ := Prod.mk.inj hsides
  obtain ⟨between, rfl⟩ := Offsets.cut_prefix Char.utf8Size_pos hrest
    (show byteLength front ≤ byteLength front' by omega)
  rw [byteLength_append] at hfront'
  have hne : between ≠ [] := by
    rintro rfl
    exact hab.ne (hfront.symm.trans hfront')
  have hpos := List.length_pos_iff.mpr hne
  rw [List.length_append]
  omega

end

/-! ### The line table -/

/-- The offsets behind the line feeds of a text that stands at a position. -/
def lineBreaks (len : ℕ) : ℕ → List Char → List ℕ
  | _, [] => []
  | pos, c :: cs =>
    if c = '\n' ∧ pos + 1 < len then (pos + 1) :: lineBreaks len (pos + c.utf8Size) cs
    else lineBreaks len (pos + c.utf8Size) cs

theorem newline_mem_utf8EncodeChar {c : Char} : 10 ∈ String.utf8EncodeChar c ↔ c = '\n' := by
  refine ⟨fun h => ?_, ?_⟩
  · have hbyte {n : ℕ} (h : (10 : UInt8) = UInt8.ofNat n) : n % 256 = 10 := by
      simpa using (congrArg UInt8.toNat h).symm
    have hval : c.val.toNat = 10 := by
      unfold String.utf8EncodeChar at h
      dsimp only at h
      split_ifs at h with hone htwo hthree
      · have := hbyte (List.mem_singleton.mp h)
        omega
      · rcases List.mem_cons.mp h with h | h
        · have := hbyte h
          omega
        · have := hbyte (List.mem_singleton.mp h)
          omega
      · rcases List.mem_cons.mp h with h | h
        · have := hbyte h
          omega
        · rcases List.mem_cons.mp h with h | h
          · have := hbyte h
            omega
          · have := hbyte (List.mem_singleton.mp h)
            omega
      · rcases List.mem_cons.mp h with h | h
        · have := hbyte h
          omega
        · rcases List.mem_cons.mp h with h | h
          · have := hbyte h
            omega
          · rcases List.mem_cons.mp h with h | h
            · have := hbyte h
              omega
            · have := hbyte (List.mem_singleton.mp h)
              omega
    exact Char.ext (UInt32.toNat_inj.mp hval)
  · rintro rfl
    decide

theorem filterMap_bytes {len pos : ℕ} {content : List Char} (hlen : len < 2 ^ 32)
    (hpos : pos + byteLength content ≤ len) :
    ((bytes content).zipIdx pos).filterMap (fun (byte, i) => lineStartAfter len byte i) =
      lineBreaks len pos content := by
  induction content generalizing pos with
  | nil => rfl
  | cons c content ih =>
    have hcons : byteLength (c :: content) = c.utf8Size + byteLength content :=
      Offsets.extent_cons _ c content
    have hbytes : bytes (c :: content) = String.utf8EncodeChar c ++ bytes content := rfl
    rw [hbytes, List.zipIdx_append, List.filterMap_append, String.length_utf8EncodeChar,
      ih (by omega), lineBreaks]
    by_cases hc : c = '\n'
    · subst hc
      have hsize : '\n'.utf8Size = 1 := rfl
      have hpos' : asU32 (pos + 1) = pos + 1 := asU32_of_lt (by omega)
      have hencoded : (String.utf8EncodeChar '\n').zipIdx pos = [(10, pos)] := by
        rw [show String.utf8EncodeChar '\n' = [10] by decide]
        rfl
      rw [hencoded]
      by_cases hlt : pos + 1 < len
      · simp [lineStartAfter, hpos', asU32_of_lt hlen, hlt]
      · simp [lineStartAfter, hpos', asU32_of_lt hlen, hlt]
    · have hnone : ((String.utf8EncodeChar c).zipIdx pos).filterMap
          (fun (byte, i) => lineStartAfter len byte i) = [] := by
        refine List.filterMap_eq_nil_iff.mpr ?_
        rintro ⟨byte, i⟩ hmem
        have hbyte : byte ∈ String.utf8EncodeChar c := (List.mem_zipIdx hmem).2.2 ▸
          List.getElem_mem _
        have hne : byte ≠ 10 := by
          rintro rfl
          exact hc (newline_mem_utf8EncodeChar.mp hbyte)
        simp [lineStartAfter, hne]
      rw [hnone, List.nil_append, if_neg fun h => hc h.1]

theorem mem_lineBreaks {len pos entry : ℕ} {content : List Char}
    (h : entry ∈ lineBreaks len pos content) :
    pos < entry ∧ entry < len ∧ ∃ a b, content = a ++ b ∧ pos + byteLength a = entry := by
  induction content generalizing pos with
  | nil => cases h
  | cons c content ih =>
    have hsize : 0 < c.utf8Size := c.utf8Size_pos
    have hlater (h : entry ∈ lineBreaks len (pos + c.utf8Size) content) :
        pos < entry ∧ entry < len ∧
          ∃ a b, c :: content = a ++ b ∧ pos + byteLength a = entry := by
      obtain ⟨hlt, hlen, a, b, rfl, hentry⟩ := ih h
      refine ⟨by omega, hlen, c :: a, b, rfl, ?_⟩
      have hcons : byteLength (c :: a) = c.utf8Size + byteLength a := Offsets.extent_cons _ c a
      omega
    rw [lineBreaks] at h
    split at h
    · next hc =>
      rcases List.mem_cons.mp h with rfl | h
      · refine ⟨Nat.lt_succ_self pos, hc.2, [c], content, rfl, ?_⟩
        rw [hc.1]
        rfl
      · exact hlater h
    · exact hlater h

theorem pairwise_lineBreaks (len pos : ℕ) (content : List Char) :
    (lineBreaks len pos content).Pairwise (· < ·) := by
  induction content generalizing pos with
  | nil => exact List.Pairwise.nil
  | cons c content ih =>
    rw [lineBreaks]
    split
    · next hc =>
      refine List.pairwise_cons.mpr ⟨fun entry hentry => ?_, ih _⟩
      have hlt := (mem_lineBreaks hentry).1
      have hsize : c.utf8Size = 1 := by
        rw [hc.1]
        rfl
      omega
    · exact ih _

theorem computeLineStarts_eq {content : List Char} (h : byteLength content < 2 ^ 32) :
    computeLineStarts content = 0 :: lineBreaks (byteLength content) 0 content :=
  congrArg (0 :: ·) (filterMap_bytes h (Nat.zero_add _).le)

theorem byteLength_pos {content : List Char} (hne : content ≠ []) : 0 < byteLength content := by
  obtain ⟨c, cs, rfl⟩ := List.exists_cons_of_ne_nil hne
  have hcons : byteLength (c :: cs) = c.utf8Size + byteLength cs := Offsets.extent_cons _ c cs
  have hsize : 0 < c.utf8Size := c.utf8Size_pos
  omega

/-- There is one line where no line feed has anything behind it. -/
theorem lineBreaks_eq_nil {len pos : ℕ} {content : List Char} (hlen : len = pos + byteLength content) :
    lineBreaks len pos content = [] ↔ '\n' ∉ content.dropLast := by
  induction content generalizing pos with
  | nil => simp [lineBreaks]
  | cons c content ih =>
    have hcons : byteLength (c :: content) = c.utf8Size + byteLength content :=
      Offsets.extent_cons _ c content
    have hrest := @ih (pos + c.utf8Size) (by omega)
    rw [lineBreaks]
    by_cases hc : c = '\n'
    · subst hc
      have hsize : '\n'.utf8Size = 1 := rfl
      cases content with
      | nil =>
        have hstop : byteLength [] = 0 := rfl
        rw [if_neg (by omega)]
        simp [lineBreaks]
      | cons d content =>
        have hpos := byteLength_pos (List.cons_ne_nil d content)
        rw [if_pos ⟨rfl, by omega⟩]
        simp
    · rw [if_neg fun h => hc h.1, hrest]
      cases content with
      | nil => simp
      | cons d content => simp [Ne.symm hc]

/-- The table rises, begins at the front, and has boundaries in it only, none of them the end of
a text that is not empty. -/
structure IsLineTable (content : List Char) (lineStarts : List ℕ) : Prop where
  pairwise : lineStarts.Pairwise (· < ·)
  first : lineStarts[0]? = some 0
  boundary : ∀ entry ∈ lineStarts, isCharBoundary content entry
  within : ∀ entry ∈ lineStarts, entry = 0 ∨ entry < byteLength content

theorem isLineTable_computeLineStarts {content : List Char} (h : byteLength content < 2 ^ 32) :
    IsLineTable content (computeLineStarts content) := by
  rw [computeLineStarts_eq h]
  refine ⟨List.pairwise_cons.mpr ⟨?_, pairwise_lineBreaks _ _ _⟩, rfl, ?_, ?_⟩
  · exact fun entry hentry => (mem_lineBreaks hentry).1
  · intro entry hentry
    rcases List.mem_cons.mp hentry with rfl | hentry
    · exact isCharBoundary_zero
    · obtain ⟨-, -, a, b, hcontent, hbyte⟩ := mem_lineBreaks hentry
      exact isCharBoundary_iff.mpr ⟨a, b, hcontent, by omega⟩
  · intro entry hentry
    rcases List.mem_cons.mp hentry with rfl | hentry
    · exact Or.inl rfl
    · exact Or.inr (mem_lineBreaks hentry).2.1

namespace IsLineTable
variable {content : List Char} {lineStarts : List ℕ}

theorem length_pos (h : IsLineTable content lineStarts) : 0 < lineStarts.length :=
  (List.getElem?_eq_some_iff.mp h.first).1

theorem le_getElem (h : IsLineTable content lineStarts) {i : ℕ} (hi : i < lineStarts.length) :
    i ≤ lineStarts[i] := by
  induction i with
  | zero => exact Nat.zero_le _
  | succ i ih =>
    have hprevious := ih (Nat.lt_of_succ_lt hi)
    have hlt := List.pairwise_iff_getElem.mp h.pairwise i (i + 1) (Nat.lt_of_succ_lt hi) hi
      (Nat.lt_succ_self i)
    omega

theorem getElem_le (h : IsLineTable content lineStarts) {i : ℕ} (hi : i < lineStarts.length) :
    lineStarts[i] ≤ byteLength content := by
  rcases h.within _ (List.getElem_mem hi) with hzero | hlt
  · omega
  · exact hlt.le

theorem getElem_lt (h : IsLineTable content lineStarts) (hne : content ≠ []) {i : ℕ}
    (hi : i < lineStarts.length) : lineStarts[i] < byteLength content := by
  rcases h.within _ (List.getElem_mem hi) with hzero | hlt
  · exact hzero.trans_lt (byteLength_pos hne)
  · exact hlt

/-- The line an offset is on: the last one that begins at or before it. -/
def reached (lineStarts : List ℕ) (offset : ℕ) : ℕ := lineStarts.countP (· ≤ offset) - 1

theorem reached_add_one (h : IsLineTable content lineStarts) (offset : ℕ) :
    reached lineStarts offset + 1 = lineStarts.countP (· ≤ offset) := by
  obtain ⟨hfirst, hzero⟩ := List.getElem?_eq_some_iff.mp h.first
  have hpos : 0 < lineStarts.countP (· ≤ offset) :=
    (Offsets.getElem_le_iff h.pairwise offset hfirst).mp (hzero.le.trans (Nat.zero_le _))
  unfold reached
  omega

theorem reached_lt (h : IsLineTable content lineStarts) (offset : ℕ) :
    reached lineStarts offset < lineStarts.length := by
  have hle : lineStarts.countP (· ≤ offset) ≤ lineStarts.length := List.countP_le_length
  have := h.reached_add_one offset
  omega

theorem le_reached_iff (h : IsLineTable content lineStarts) {offset i : ℕ}
    (hi : i < lineStarts.length) : lineStarts[i] ≤ offset ↔ i ≤ reached lineStarts offset := by
  rw [Offsets.getElem_le_iff h.pairwise offset hi, ← h.reached_add_one offset]
  exact Nat.lt_succ_iff

theorem reached_mono (h : IsLineTable content lineStarts) {a b : ℕ} (hab : a ≤ b) :
    reached lineStarts a ≤ reached lineStarts b := by
  refine (h.le_reached_iff (h.reached_lt a)).mp ?_
  exact ((h.le_reached_iff (h.reached_lt a)).mpr le_rfl).trans hab

theorem reached_getElem (h : IsLineTable content lineStarts) {i : ℕ} (hi : i < lineStarts.length) :
    reached lineStarts lineStarts[i] = i := by
  have hle : i ≤ reached lineStarts lineStarts[i] := (h.le_reached_iff hi).mp le_rfl
  have hreached := h.reached_lt lineStarts[i]
  have hentry := (h.le_reached_iff hreached).mpr le_rfl
  refine le_antisymm (Nat.le_of_not_lt fun hlt => ?_) hle
  have := List.pairwise_iff_getElem.mp h.pairwise _ _ hi hreached hlt
  omega

theorem lineIndexOf_eq (h : IsLineTable content lineStarts) (offset : ℕ) :
    lineIndexOf lineStarts offset = some (reached lineStarts offset) := by
  unfold lineIndexOf
  rcases Offsets.binarySearch_eq h.pairwise offset with ⟨i, hsearch, hcount⟩ | hsearch
  · rw [← h.reached_add_one offset] at hcount
    rw [hsearch, Nat.succ.inj hcount]
  · rw [hsearch, ← h.reached_add_one offset]

theorem locate_eq (checked : Bool) (h : IsLineTable content lineStarts)
    (hbound : byteLength content < 2 ^ 32) {offset nearest : ℕ}
    (hnearest : IsNearest content offset nearest) :
    ∃ text, slice content (lineStarts.get ⟨reached lineStarts nearest, h.reached_lt nearest⟩)
        nearest = some text ∧
      locate checked content lineStarts offset =
        (addU32 checked text.length 1).map fun column => ⟨reached lineStarts nearest + 1, column⟩ := by
  have hlen : asU32 (byteLength content) = byteLength content := asU32_of_lt hbound
  have hsnap : snap content (min offset (byteLength content)) = nearest :=
    (isNearest_snap_min content offset).unique hnearest
  have hi := h.reached_lt nearest
  have hstart := (h.le_reached_iff hi).mpr (le_refl (reached lineStarts nearest))
  obtain ⟨before, text, behind, hcontent, -, hlength, hslice⟩ :=
    slice_of_boundaries (h.boundary _ (List.getElem_mem hi)) hnearest.1.1 hstart
  refine ⟨text, hslice, ?_⟩
  -- a line begins before the end of the text, so that its number has room for one more
  have hfits : reached lineStarts nearest + 1 < 2 ^ 32 := by
    have hle := h.le_getElem hi
    rcases h.within _ (List.getElem_mem hi) with hzero | hlt
    · omega
    · omega
  have hline : asU32 (reached lineStarts nearest) = reached lineStarts nearest :=
    asU32_of_lt (by omega)
  have hcolumn : asU32 text.length = text.length := by
    refine asU32_of_lt ?_
    have := length_le_byteLength text
    have := isCharBoundary_le hnearest.1.1
    omega
  have hentry : lineStarts[reached lineStarts nearest]? = some _ := List.getElem?_eq_getElem hi
  simp only [locate, hlen, hsnap, h.lineIndexOf_eq, hentry, hslice, hline, hcolumn,
    addU32_of_lt hfits, Option.bind_eq_bind, Option.bind_some]
  cases addU32 checked text.length 1 with
  | none => rfl
  | some column => rfl

end IsLineTable

namespace SourceFile
variable {name : String} {content : List Char}

theorem isLineTable_new (name : String) (h : byteLength content < 2 ^ 32) :
    IsLineTable content (new name content).lineStarts := isLineTable_computeLineStarts h

theorem len_new (h : byteLength content < 2 ^ 32) : (new name content).len = byteLength content :=
  asU32_of_lt h

theorem lineCount_new (name : String) (h : byteLength content < 2 ^ 32) :
    (new name content).lineCount = (new name content).lineStarts.length := by
  refine asU32_of_lt ?_
  have htable := isLineTable_new name h
  have hpos := htable.length_pos
  have hlast : (new name content).lineStarts.length - 1 < (new name content).lineStarts.length := by
    omega
  have := htable.le_getElem hlast
  rcases htable.within _ (List.getElem_mem hlast) with hzero | hlt
  · omega
  · omega

/-- Where a line ends: at the next one, or with the text. -/
def lineStop (file : SourceFile) (index : ℕ) : ℕ := file.lineStarts[index + 1]?.getD file.len

theorem lineSpan_succ {file : SourceFile} {index : ℕ} (hindex : index < file.lineStarts.length) :
    file.lineSpan (index + 1) = some ⟨file.lineStarts[index], file.lineStop index⟩ := by
  simp [lineSpan, lineStop, List.getElem?_eq_getElem hindex]

theorem lineSpan_eq_some {file : SourceFile} {line : ℕ} {span : Span}
    (h : file.lineSpan line = some span) :
    ∃ index, ∃ hindex : index < file.lineStarts.length,
      line = index + 1 ∧ span = ⟨file.lineStarts[index], file.lineStop index⟩ := by
  cases line with
  | zero => cases h
  | succ index =>
    obtain ⟨start, hstart, hspan⟩ := Option.bind_eq_some_iff.mp h
    obtain ⟨hindex, rfl⟩ := List.getElem?_eq_some_iff.mp hstart
    exact ⟨index, hindex, rfl, (Option.some.inj hspan).symm⟩

theorem lt_lineStop_iff (h : byteLength content < 2 ^ 32) {offset index : ℕ}
    (hoffset : offset < byteLength content) :
    offset < (new name content).lineStop index ↔
      IsLineTable.reached (new name content).lineStarts offset ≤ index := by
  have htable := isLineTable_new name h
  by_cases hnext : index + 1 < (new name content).lineStarts.length
  · have hreached : (new name content).lineStarts[index + 1] ≤ offset ↔ _ :=
      htable.le_reached_iff hnext
    rw [lineStop, List.getElem?_eq_getElem hnext, Option.getD_some]
    omega
  · have hlt := htable.reached_lt offset
    rw [lineStop, List.getElem?_eq_none (Nat.le_of_not_lt hnext), Option.getD_none, len_new h]
    omega

/-- The spans of the lines stand end to end over the text. -/
structure LinesTile (file : SourceFile) : Prop where
  /-- Every number up to the count names a line, and no other does. -/
  lines : ∀ line, (file.lineSpan line).isSome ↔ 1 ≤ line ∧ line ≤ file.lineCount
  first : ∃ span, file.lineSpan 1 = some span ∧ span.start = 0
  next : ∀ line span span', file.lineSpan line = some span →
    file.lineSpan (line + 1) = some span' → span.stop = span'.start
  last : ∀ span, file.lineSpan file.lineCount = some span → span.stop = byteLength file.content
  /-- A line is not empty, unless the text is. -/
  ordered : ∀ line span, file.lineSpan line = some span →
    span.start < span.stop ∨ file.content = [] ∧ span = .empty 0
  boundaries : ∀ line span, file.lineSpan line = some span →
    isCharBoundary file.content span.start ∧ isCharBoundary file.content span.stop
  /-- Every byte is on one line. -/
  covered : ∀ offset < byteLength file.content,
    ∃! line, ∃ span, file.lineSpan line = some span ∧ span.start ≤ offset ∧ offset < span.stop

theorem linesTile_new (h : byteLength content < 2 ^ 32) : LinesTile (new name content) := by
  have htable := isLineTable_new name h
  have hcount := lineCount_new name h
  obtain ⟨hfirst, hzero⟩ := List.getElem?_eq_some_iff.mp htable.first
  constructor
  · intro line
    rw [hcount, Option.isSome_iff_exists]
    refine ⟨?_, ?_⟩
    · rintro ⟨span, hspan⟩
      obtain ⟨index, hindex, rfl, -⟩ := lineSpan_eq_some hspan
      omega
    · rintro ⟨hpos, hle⟩
      obtain ⟨index, rfl⟩ := Nat.exists_eq_add_of_le' hpos
      exact ⟨_, lineSpan_succ hle⟩
  · exact ⟨_, lineSpan_succ hfirst, hzero⟩
  · intro line span span' hspan hspan'
    obtain ⟨index, hindex, rfl, rfl⟩ := lineSpan_eq_some hspan
    obtain ⟨index', hindex', hnext, rfl⟩ := lineSpan_eq_some hspan'
    obtain rfl : index + 1 = index' := Nat.succ.inj hnext
    simp [lineStop, List.getElem?_eq_getElem hindex']
  · intro span hspan
    obtain ⟨index, hindex, hline, rfl⟩ := lineSpan_eq_some hspan
    have hlast : (new name content).lineStarts.length ≤ index + 1 := by omega
    simp only [lineStop, List.getElem?_eq_none hlast, Option.getD_none]
    exact len_new h
  · intro line span hspan
    obtain ⟨index, hindex, rfl, rfl⟩ := lineSpan_eq_some hspan
    by_cases hempty : content = []
    · subst hempty
      have hle := htable.le_getElem hindex
      have hstart := htable.getElem_le hindex
      obtain rfl : index = 0 := Nat.le_zero.mp (hle.trans hstart)
      exact Or.inr ⟨rfl, rfl⟩
    · refine Or.inl ((lt_lineStop_iff h (htable.getElem_lt hempty hindex)).mpr ?_)
      exact (htable.reached_getElem hindex).le
  · intro line span hspan
    obtain ⟨index, hindex, rfl, rfl⟩ := lineSpan_eq_some hspan
    refine ⟨htable.boundary _ (List.getElem_mem hindex), ?_⟩
    by_cases hnext : index + 1 < (new name content).lineStarts.length
    · simp only [lineStop, List.getElem?_eq_getElem hnext, Option.getD_some]
      exact htable.boundary _ (List.getElem_mem hnext)
    · simp only [lineStop, List.getElem?_eq_none (Nat.le_of_not_lt hnext), Option.getD_none]
      rw [len_new h]
      exact isCharBoundary_iff.mpr ⟨content, [], (List.append_nil _).symm, rfl⟩
  · intro offset hoffset
    have hreached := htable.reached_lt offset
    refine ⟨IsLineTable.reached (new name content).lineStarts offset + 1,
      ⟨_, lineSpan_succ hreached, (htable.le_reached_iff hreached).mpr le_rfl,
        (lt_lineStop_iff h hoffset).mpr le_rfl⟩, ?_⟩
    rintro line ⟨span, hspan, hstart, hstop⟩
    obtain ⟨index, hindex, rfl, rfl⟩ := lineSpan_eq_some hspan
    have hle := (htable.le_reached_iff hindex).mp hstart
    have hge := (lt_lineStop_iff h hoffset).mp hstop
    omega

/-- All of the text is on one line, and the column behind its last character is more than a
number of 32 bits can hold. -/
def FillsOneLine (content : List Char) : Prop :=
  content.length + 1 = 2 ^ 32 ∧ '\n' ∉ content.dropLast

theorem lineStarts_eq_singleton (name : String) (h : byteLength content < 2 ^ 32) :
    (new name content).lineStarts = [0] ↔ '\n' ∉ content.dropLast := by
  have hstarts : (new name content).lineStarts = 0 :: lineBreaks (byteLength content) 0 content :=
    computeLineStarts_eq h
  rw [hstarts, List.cons.injEq, lineBreaks_eq_nil (Nat.zero_add _).symm]
  simp

theorem lineStarts_length_of_slice (name : String) (h : byteLength content < 2 ^ 32)
    (offset : ℕ) (hoffset : byteLength content ≤ offset)
    (hzero : (new name content).lineStarts.get
      ⟨IsLineTable.reached (new name content).lineStarts offset,
        (isLineTable_new name h).reached_lt offset⟩ = 0) :
    (new name content).lineStarts = [0] := by
  have htable := isLineTable_new name h
  have hreached := htable.reached_lt offset
  have hstart : IsLineTable.reached (new name content).lineStarts offset = 0 :=
    Nat.le_zero.mp ((htable.le_getElem hreached).trans hzero.le)
  have hlast : (new name content).lineStarts.length - 1 < (new name content).lineStarts.length := by
    omega
  have hwithin := (htable.le_reached_iff hlast).mp ((htable.getElem_le hlast).trans hoffset)
  obtain ⟨first, hfirst⟩ := List.length_eq_one_iff.mp
    (show (new name content).lineStarts.length = 1 by omega)
  have hentry := htable.first
  rw [hfirst] at hentry ⊢
  rw [Option.some.inj hentry]

theorem length_of_not_fillsOneLine (name : String) (h : byteLength content < 2 ^ 32)
    (hshort : ¬ FillsOneLine content) {nearest : ℕ} {text : List Char}
    (hboundary : isCharBoundary content nearest)
    (hslice : slice content ((new name content).lineStarts.get
      ⟨IsLineTable.reached (new name content).lineStarts nearest,
        (isLineTable_new name h).reached_lt nearest⟩) nearest = some text) :
    text.length + 1 < 2 ^ 32 := by
  have htable := isLineTable_new name h
  have hi := htable.reached_lt nearest
  have hstart := (htable.le_reached_iff hi).mpr (le_refl
    (IsLineTable.reached (new name content).lineStarts nearest))
  obtain ⟨before, text', behind, hcontent, hbefore, hstop, hslice'⟩ :=
    slice_of_boundaries (htable.boundary _ (List.getElem_mem hi)) hboundary hstart
  obtain rfl := Option.some.inj (hslice.symm.trans hslice')
  have htext := length_le_byteLength text
  have hsum : byteLength content = byteLength before + (byteLength text + byteLength behind) := by
    rw [hcontent, byteLength_append, byteLength_append]
  by_contra hlong
  have hbehind : behind = [] := by
    by_contra hne
    have := byteLength_pos hne
    omega
  have hnone : before = [] := by
    by_contra hne
    have := byteLength_pos hne
    omega
  subst hbehind hnone
  simp only [List.nil_append, List.append_nil] at hcontent
  subst hcontent
  have hone := lineStarts_length_of_slice name h nearest (by omega) hbefore.symm
  exact hshort ⟨by omega, (lineStarts_eq_singleton name h).mp hone⟩

theorem location_new (checked : Bool) (name : String) (h : byteLength content < 2 ^ 32)
    (hshort : ¬ FillsOneLine content) {offset nearest : ℕ}
    (hnearest : IsNearest content offset nearest) :
    ∃ span text, (new name content).location checked offset =
        some ⟨IsLineTable.reached (new name content).lineStarts nearest + 1, text.length + 1⟩ ∧
      (new name content).lineSpan (IsLineTable.reached (new name content).lineStarts nearest + 1) =
        some span ∧
      (nearest < span.stop ∨ nearest = byteLength content) ∧
      slice content span.start nearest = some text := by
  have htable := isLineTable_new name h
  obtain ⟨text, hslice, hlocate⟩ := htable.locate_eq checked h hnearest
  rw [addU32_of_lt (length_of_not_fillsOneLine name h hshort hnearest.1.1 hslice)] at hlocate
  refine ⟨_, text, hlocate, lineSpan_succ (htable.reached_lt nearest), ?_, hslice⟩
  rcases (isCharBoundary_le hnearest.1.1).lt_or_eq with hlt | heq
  · exact Or.inl ((lt_lineStop_iff h hlt).mpr le_rfl)
  · exact Or.inr heq

theorem location_eq_nearest (checked : Bool) (h : byteLength content < 2 ^ 32) {offset nearest : ℕ}
    (hnearest : IsNearest content offset nearest) :
    (new name content).location checked offset = (new name content).location checked nearest := by
  have htable := isLineTable_new name h
  obtain ⟨text, hslice, hlocate⟩ := htable.locate_eq checked h hnearest
  obtain ⟨text', hslice', hlocate'⟩ :=
    htable.locate_eq checked h ⟨⟨hnearest.1.1, le_rfl⟩, fun boundary hb => hb.2⟩
  obtain rfl := Option.some.inj (hslice.symm.trans hslice')
  exact hlocate.trans hlocate'.symm

theorem location_lt {checked : Bool} (h : byteLength content < 2 ^ 32)
    (hshort : ¬ FillsOneLine content) {a b : ℕ} {la lb : Location}
    (ha : isCharBoundary content a) (hb : isCharBoundary content b) (hab : a < b)
    (hla : (new name content).location checked a = some la)
    (hlb : (new name content).location checked b = some lb) :
    la.line < lb.line ∨ la.line = lb.line ∧ la.column < lb.column := by
  have htable := isLineTable_new name h
  obtain ⟨texta, hslicea, hloca⟩ := htable.locate_eq checked h ⟨⟨ha, le_rfl⟩, fun c hc => hc.2⟩
  obtain ⟨textb, hsliceb, hlocb⟩ := htable.locate_eq checked h ⟨⟨hb, le_rfl⟩, fun c hc => hc.2⟩
  rw [addU32_of_lt (length_of_not_fillsOneLine name h hshort ha hslicea)] at hloca
  rw [addU32_of_lt (length_of_not_fillsOneLine name h hshort hb hsliceb)] at hlocb
  obtain rfl := Option.some.inj (hloca.symm.trans hla)
  obtain rfl := Option.some.inj (hlocb.symm.trans hlb)
  rcases (htable.reached_mono hab.le).lt_or_eq with hlt | heq
  · exact Or.inl (Nat.succ_lt_succ hlt)
  · refine Or.inr ⟨congrArg Nat.succ heq, Nat.succ_lt_succ ?_⟩
    have hi := htable.reached_lt a
    have hstart := (htable.le_reached_iff hi).mpr le_rfl
    simp only [← heq] at hsliceb
    exact length_lt_of_slice (htable.boundary _ (List.getElem_mem hi)) ha hb hstart hab hslicea
      hsliceb

/-- Behind the last character of such a text there is no location, or one in column 0. -/
theorem location_of_fillsOneLine (checked : Bool) (name : String) (h : byteLength content < 2 ^ 32)
    (hlong : FillsOneLine content) : (new name content).location checked (byteLength content) =
      if checked then none else some ⟨1, 0⟩ := by
  have htable := isLineTable_new name h
  have hlines := (lineStarts_eq_singleton name h).mpr hlong.2
  have hlength := length_le_byteLength content
  have hboundary : isCharBoundary content (byteLength content) :=
    isCharBoundary_iff.mpr ⟨content, [], (List.append_nil _).symm, rfl⟩
  obtain ⟨text, hslice, hlocate⟩ :=
    htable.locate_eq checked h ⟨⟨hboundary, le_rfl⟩, fun boundary hb => hb.2⟩
  have hreached : IsLineTable.reached (new name content).lineStarts (byteLength content) = 0 := by
    simp [IsLineTable.reached, hlines]
  have hall : slice content 0 (byteLength content) = some content := by
    have hfront : splitAt content 0 = some ([], content) := splitAt_eq_some.mpr ⟨rfl, rfl⟩
    have hback : splitAt content (byteLength content) = some (content, []) :=
      splitAt_eq_some.mpr ⟨(List.append_nil _).symm, rfl⟩
    simp [slice, hfront, hback]
  have hzero : (new name content).lineStarts.get
      ⟨IsLineTable.reached (new name content).lineStarts (byteLength content),
        htable.reached_lt _⟩ = 0 := by
    simp [hlines]
  rw [hzero, hall] at hslice
  obtain rfl := Option.some.inj hslice
  have hsum : addU32 checked content.length 1 = if checked then none else some 0 := by
    rw [addU32, if_neg (by rw [hlong.1]; exact lt_irrefl _), hlong.1]
    rfl
  refine hlocate.trans ?_
  rw [hsum, hreached]
  cases checked with
  | false => rfl
  | true => rfl

/-- The lines of a file stand end to end over its text. An offset has the location of the last
boundary at or before it, on the line that boundary is on, in the column behind the characters
between; and a later boundary has a later location. -/
structure LocationsExact (checked : Bool) (file : SourceFile) : Prop where
  lines : file.LinesTile
  located : ∀ offset, ∃ nearest location span text, IsNearest file.content offset nearest ∧
    file.location checked offset = some location ∧
    file.location checked nearest = some location ∧
    file.lineSpan location.line = some span ∧
    (nearest < span.stop ∨ nearest = byteLength file.content) ∧
    slice file.content span.start nearest = some text ∧ location.column = text.length + 1
  rising : ∀ a b la lb, isCharBoundary file.content a → isCharBoundary file.content b → a < b →
    file.location checked a = some la → file.location checked b = some lb →
    la.line < lb.line ∨ la.line = lb.line ∧ la.column < lb.column

theorem locationsExact_new (checked : Bool) (name : String) (h : byteLength content < 2 ^ 32)
    (hshort : ¬ FillsOneLine content) : (new name content).LocationsExact checked := by
  refine ⟨linesTile_new h, fun offset => ?_, ?_⟩
  · have hnearest := isNearest_snap content offset
    obtain ⟨span, text, hlocation, hspan, hwithin, hslice⟩ :=
      location_new checked name h hshort hnearest
    refine ⟨_, _, span, text, hnearest, hlocation, ?_, hspan, hwithin, hslice, rfl⟩
    exact (location_eq_nearest checked h hnearest).symm.trans hlocation
  · intro a b la lb ha hb hab hla hlb
    exact location_lt h hshort ha hb hab hla hlb

theorem not_locationsExact_new (checked : Bool) (name : String) (h : byteLength content < 2 ^ 32)
    (hlong : FillsOneLine content) : ¬ (new name content).LocationsExact checked := by
  intro hexact
  obtain ⟨nearest, location, span, text, -, hlocation, -, -, -, -, hcolumn⟩ :=
    hexact.located (byteLength content)
  rw [location_of_fillsOneLine checked name h hlong] at hlocation
  cases checked with
  | true => cases hlocation
  | false =>
    cases hlocation
    cases hcolumn

end SourceFile

/-- With arithmetic checked or not, the locations of a file are exact unless its text is one line
whose last column overflows. -/
theorem location_exact (checked : Bool) (name : String) (content : List Char)
    (h : byteLength content < 2 ^ 32) : (SourceFile.new name content).LocationsExact checked ↔
      ¬ (content.length + 1 = 2 ^ 32 ∧ '\n' ∉ content.dropLast) :=
  ⟨fun hexact hlong => SourceFile.not_locationsExact_new checked name h hlong hexact,
    SourceFile.locationsExact_new checked name h⟩

/-- A line with a character of two bytes, and a line feed at the end. -/
theorem location_exact_accent : byteLength "é\n".toList = 3 ∧
    (SourceFile.new "a.npt" "é\n".toList).LocationsExact true :=
  ⟨by decide, (location_exact true "a.npt" "é\n".toList (by decide)).mpr fun h =>
    absurd h.1 (by decide)⟩

example : (List.range 5).map ((SourceFile.new "a.npt" "é\n".toList).location true) =
    [some ⟨1, 1⟩, some ⟨1, 1⟩, some ⟨1, 2⟩, some ⟨1, 3⟩, some ⟨1, 3⟩] := by decide

theorem byteLength_replicate (n : ℕ) : byteLength (List.replicate n 'a') = n := by
  induction n with
  | zero => rfl
  | succ n ih =>
    have hcons : byteLength ('a' :: List.replicate n 'a') =
        'a'.utf8Size + byteLength (List.replicate n 'a') := Offsets.extent_cons _ _ _
    have hsize : 'a'.utf8Size = 1 := rfl
    rw [List.replicate_succ, hcons, ih, hsize, Nat.add_comm]

theorem fillsOneLine_replicate {n : ℕ} (hn : n + 1 = 2 ^ 32) :
    SourceFile.FillsOneLine (List.replicate n 'a') := by
  refine ⟨by rw [List.length_replicate, hn], fun hfeed => ?_⟩
  have hletter := List.eq_of_mem_replicate (List.mem_of_mem_dropLast hfeed)
  exact absurd hletter (by decide)

/-- A file of 4 GiB less a byte, all on one line. -/
theorem longest_line_has_no_column :
    byteLength (List.replicate (2 ^ 32 - 1) 'a') < 2 ^ 32 ∧
    (∀ checked, (SourceFile.new "a.npt" (List.replicate (2 ^ 32 - 1) 'a')).location checked
      (2 ^ 32 - 1) = if checked then none else some ⟨1, 0⟩) ∧
    ∀ checked, ¬ (SourceFile.new "a.npt" (List.replicate (2 ^ 32 - 1) 'a')).LocationsExact checked := by
  have hlength := byteLength_replicate (2 ^ 32 - 1)
  have hbound : byteLength (List.replicate (2 ^ 32 - 1) 'a') < 2 ^ 32 := by
    rw [hlength]
    omega
  have hlong := fillsOneLine_replicate (n := 2 ^ 32 - 1) (by omega)
  refine ⟨hbound, fun checked => ?_, fun checked => ?_⟩
  · have hlast := SourceFile.location_of_fillsOneLine checked "a.npt" hbound hlong
    rw [hlength] at hlast
    exact hlast
  · exact SourceFile.not_locationsExact_new checked "a.npt" hbound hlong

end Napitia.Source
