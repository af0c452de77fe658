import Mathlib.Data.List.Basic

/-!
# Module paths

A module is named by the path of its file under the source root, one segment for each
directory and one for the file without its extension. A path is taken as the sequence of its
components, which is also how paths are compared; every name is text.
-/
namespace Napitia.Project

/-! ### Paths -/

inductive Component where
  | rootDir
  | curDir
  | parentDir
  | normal (name : List Char)
  deriving DecidableEq, Repr

/-- What can be the name of a file or a directory. -/
def IsName (part : List Char) : Prop :=
  part ≠ [] ∧ part ≠ ['.'] ∧ part ≠ ['.', '.'] ∧ '/' ∉ part

instance (part : List Char) : Decidable (IsName part) := by
  unfold IsName
  infer_instance

/-- The component that a part of a path stands for. -/
def component (part : List Char) : Component :=
  if part = ['.'] then .curDir else if part = ['.', '.'] then .parentDir else .normal part

/-- What stands on either side of the last dot. -/
def splitAtLastDot : List Char → Option (List Char × List Char)
  | [] => none
  | c :: cs =>
    match splitAtLastDot cs with
    | some (before, after) => some (c :: before, after)
    | none => if c = '.' then some ([], cs) else none

/-- A dot in front belongs to the name. -/
def rsplitFileAtDot (file : List Char) : Option (List Char) × Option (List Char) :=
  match splitAtLastDot file with
  | none => (none, some file)
  | some ([], _) => (some file, none)
  | some (before, after) => (some before, some after)

def stemOf (file : List Char) : List Char :=
  match rsplitFileAtDot file with
  | (some before, _) => before
  | (none, after) => after.getD []

def extensionOf (file : List Char) : Option (List Char) :=
  match rsplitFileAtDot file with
  | (some _, after) => after
  | (none, _) => none

def fileName (path : List Component) : Option (List Char) :=
  match path.getLast? with
  | some (.normal name) => some name
  | _ => none

def fileStem (path : List Component) : Option (List Char) := (fileName path).map stemOf

def extension (path : List Component) : Option (List Char) := (fileName path).bind extensionOf

/-- The path is cut behind the stem; an extension that is not empty follows a dot. -/
def setExtension (path : List Component) (ext : List Char) : List Component :=
  match fileStem path with
  | none => path
  | some stem => path.dropLast ++ [component (stem ++ if ext = [] then [] else '.' :: ext)]

/-- The path is first cut in front of its extension, behind the dot. -/
def withExtension (path : List Component) (ext : List Char) : List Component :=
  match fileName path, extension path with
  | some name, some previous =>
    setExtension (path.dropLast ++ [component (name.take (name.length - previous.length))]) ext
  | _, _ => setExtension path ext

@[ext]
structure Path where
  components : List Component
  names : ∀ name, .normal name ∈ components → IsName name

/-! ### Module paths -/

def npt : List Char := ['n', 'p', 't']

@[ext]
structure ModulePath where
  segments : List (List Char)
  names : ∀ segment ∈ segments, IsName segment
  ne_nil : segments ≠ []

def normalName : Component → Option (List Char)
  | .normal name => some name
  | _ => none

/-- The segments of a module path, if the path has an extension of that kind and is made of names
alone. -/
def segmentsOf (path : List Component) : Option (List (List Char)) :=
  if extension path = some npt then
    match (withExtension path []).mapM normalName with
    | none => none
    | some segments => if segments = [] then none else some segments
  else none

def ModulePath.relativeFile (segments : List (List Char)) : List Component :=
  setExtension (segments.map .normal) npt

def ModulePath.dotted (path : ModulePath) : List Char := List.intercalate ['.'] path.segments

/-! ### Names and their extensions -/

theorem splitAtLastDot_eq_none {file : List Char} : splitAtLastDot file = none ↔ '.' ∉ file := by
  induction file with
  | nil => simp [splitAtLastDot]
  | cons c cs ih =>
    rw [splitAtLastDot]
    cases hrest : splitAtLastDot cs with
    | some sides =>
      have hdot : '.' ∈ cs := by
        by_contra h
        rw [ih.mpr h] at hrest
        cases hrest
      simp [hdot]
    | none =>
      have hdot : '.' ∉ cs := ih.mp hrest
      by_cases hc : c = '.'
      · simp [hc]
      · simp [hc, hdot, Ne.symm hc]

theorem splitAtLastDot_eq_some {file before after : List Char} :
    splitAtLastDot file = some (before, after) ↔ file = before ++ '.' :: after ∧ '.' ∉ after := by
  induction file generalizing before after with
  | nil => simp [splitAtLastDot]
  | cons c cs ih =>
    rw [splitAtLastDot]
    cases hrest : splitAtLastDot cs with
    | some sides =>
      obtain ⟨before', after'⟩ := sides
      obtain ⟨hcs, hafter⟩ := ih.mp hrest
      refine ⟨?_, ?_⟩
      · rintro ⟨⟩
        exact ⟨congrArg (c :: ·) hcs, hafter⟩
      · rintro ⟨happend, hdot⟩
        cases before with
        | nil =>
          obtain ⟨-, rfl⟩ := List.cons.inj happend
          rw [splitAtLastDot_eq_none.mpr hdot] at hrest
          cases hrest
        | cons d before =>
          obtain ⟨rfl, happend'⟩ := List.cons.inj happend
          have hsame := hrest.symm.trans (ih.mpr ⟨happend', hdot⟩)
          cases hsame
          rfl
    | none =>
      have hdot : '.' ∉ cs := splitAtLastDot_eq_none.mp hrest
      by_cases hc : c = '.'
      · subst hc
        simp only [if_true, Option.some.injEq, Prod.mk.injEq]
        refine ⟨?_, ?_⟩
        · rintro ⟨rfl, rfl⟩
          exact ⟨rfl, hdot⟩
        · rintro ⟨happend, -⟩
          cases before with
          | nil => exact ⟨rfl, (List.cons.inj happend).2⟩
          | cons d before =>
            obtain ⟨-, happend⟩ := List.cons.inj happend
            refine absurd ?_ hdot
            rw [happend]
            simp
      · rw [if_neg hc]
        refine ⟨(fun h => by cases h), ?_⟩
        rintro ⟨happend, -⟩
        cases before with
        | nil => exact absurd (List.cons.inj happend).1 hc
        | cons d before =>
          obtain ⟨-, happend⟩ := List.cons.inj happend
          refine absurd ?_ hdot
          rw [happend]
          simp

theorem extensionOf_eq_some {file ext : List Char} :
    extensionOf file = some ext ↔
      ∃ before, before ≠ [] ∧ file = before ++ '.' :: ext ∧ '.' ∉ ext := by
  unfold extensionOf rsplitFileAtDot
  cases hsplit : splitAtLastDot file with
  | none =>
    refine ⟨(fun h => by cases h), ?_⟩
    rintro ⟨before, -, rfl, -⟩
    refine absurd ?_ (splitAtLastDot_eq_none.mp hsplit)
    simp
  | some sides =>
    obtain ⟨before, after⟩ := sides
    obtain ⟨hfile, hdot⟩ := splitAtLastDot_eq_some.mp hsplit
    cases before with
    | nil =>
      refine ⟨(fun h => by cases h), ?_⟩
      rintro ⟨before, hne, hfile', hdot'⟩
      rw [splitAtLastDot_eq_some.mpr ⟨hfile', hdot'⟩] at hsplit
      cases hsplit
      exact absurd rfl hne
    | cons c before =>
      refine ⟨?_, ?_⟩
      · rintro ⟨⟩
        exact ⟨c :: before, List.cons_ne_nil c before, hfile, hdot⟩
      · rintro ⟨before', -, hfile', hdot'⟩
        rw [splitAtLastDot_eq_some.mpr ⟨hfile', hdot'⟩] at hsplit
        cases hsplit
        rfl

theorem stemOf_append {before ext : List Char} (hne : before ≠ []) (hdot : '.' ∉ ext) :
    stemOf (before ++ '.' :: ext) = before := by
  unfold stemOf rsplitFileAtDot
  rw [splitAtLastDot_eq_some.mpr ⟨rfl, hdot⟩]
  cases before with
  | nil => exact absurd rfl hne
  | cons c before => rfl

theorem stemOf_eq_self {file : List Char} : stemOf file = file ↔ '.' ∉ file.tail := by
  unfold stemOf rsplitFileAtDot
  cases hsplit : splitAtLastDot file with
  | none =>
    refine iff_of_true rfl fun h => ?_
    exact splitAtLastDot_eq_none.mp hsplit (List.mem_of_mem_tail h)
  | some sides =>
    obtain ⟨before, after⟩ := sides
    obtain ⟨rfl, hdot⟩ := splitAtLastDot_eq_some.mp hsplit
    cases before with
    | nil => exact iff_of_true rfl hdot
    | cons c before =>
      refine iff_of_false ?_ ?_
      · intro h
        have := congrArg List.length h
        simp at this
      · simp

theorem stemOf_ne_nil {file : List Char} (hne : file ≠ []) : stemOf file ≠ [] := by
  by_cases hstem : stemOf file = file
  · rwa [hstem]
  · unfold stemOf rsplitFileAtDot at hstem ⊢
    cases hsplit : splitAtLastDot file with
    | none => simp [hsplit] at hstem
    | some sides =>
      obtain ⟨before, after⟩ := sides
      cases before with
      | nil => simp [hsplit] at hstem
      | cons c before => exact List.cons_ne_nil c before

theorem mem_of_mem_stemOf {file : List Char} {c : Char} (h : c ∈ stemOf file) : c ∈ file := by
  unfold stemOf rsplitFileAtDot at h
  cases hsplit : splitAtLastDot file with
  | none => simpa [hsplit] using h
  | some sides =>
    obtain ⟨before, after⟩ := sides
    obtain ⟨rfl, -⟩ := splitAtLastDot_eq_some.mp hsplit
    cases before with
    | nil =>
      rw [hsplit] at h
      exact h
    | cons d before =>
      rw [hsplit] at h
      exact List.mem_append_left _ h

/-! ### From a path to a module and back -/

theorem mapM_normalName {path : List Component} {names : List (List Char)} :
    path.mapM normalName = some names ↔ path = names.map .normal := by
  induction path generalizing names with
  | nil =>
    rw [List.mapM_nil]
    cases names with
    | nil => exact iff_of_true rfl rfl
    | cons name names => exact iff_of_false (fun h => by cases h) (fun h => by cases h)
  | cons c path ih =>
    rw [List.mapM_cons]
    cases names with
    | nil =>
      refine iff_of_false (fun h => ?_) (fun h => by cases h)
      obtain ⟨name, -, h⟩ := Option.bind_eq_some_iff.mp h
      obtain ⟨names, -, h⟩ := Option.bind_eq_some_iff.mp h
      cases h
    | cons name names =>
      refine ⟨fun h => ?_, fun h => ?_⟩
      · obtain ⟨name', hname, h⟩ := Option.bind_eq_some_iff.mp h
        obtain ⟨names', hnames, h⟩ := Option.bind_eq_some_iff.mp h
        cases h
        cases c with
        | normal name' =>
          cases hname
          rw [ih.mp hnames]
          rfl
        | rootDir => cases hname
        | curDir => cases hname
        | parentDir => cases hname
      · obtain ⟨rfl, hpath⟩ := List.cons.inj h
        simp [normalName, ih.mpr hpath]

theorem npt_no_dot : '.' ∉ npt := by decide

theorem component_of_isName {part : List Char} (h : IsName part) : component part = .normal part := by
  rw [component, if_neg h.2.1, if_neg h.2.2.1]

theorem isName_append_npt {stem : List Char} (hne : stem ≠ []) (hslash : '/' ∉ stem) :
    IsName (stem ++ '.' :: npt) := by
  have hlength : 4 < (stem ++ '.' :: npt).length := by
    have := List.length_pos_iff.mpr hne
    simp [npt]
    omega
  refine ⟨?_, ?_, ?_, ?_⟩
  · intro h
    simp [h] at hlength
  · intro h
    simp [h] at hlength
  · intro h
    simp [h] at hlength
  · simp [npt, hslash]

theorem setExtension_append {init : List Component} {name : List Char} (ext : List Char) :
    setExtension (init ++ [.normal name]) ext =
      init ++ [component (stemOf name ++ if ext = [] then [] else '.' :: ext)] := by
  simp [setExtension, fileStem, fileName]

theorem withExtension_nil {init : List Component} {before : List Char} (hne : before ≠ []) :
    withExtension (init ++ [.normal (before ++ '.' :: npt)]) [] =
      init ++ [if before = ['.'] then .parentDir else component before] := by
  have hext : extensionOf (before ++ '.' :: npt) = some npt :=
    extensionOf_eq_some.mpr ⟨before, hne, rfl, npt_no_dot⟩
  have htake : (before ++ '.' :: npt).take ((before ++ '.' :: npt).length - npt.length) =
      before ++ ['.'] := by
    have hsplit : before ++ '.' :: npt = (before ++ ['.']) ++ npt := by simp
    rw [hsplit, List.length_append, Nat.add_sub_cancel]
    exact List.take_left
  have hcut : withExtension (init ++ [.normal (before ++ '.' :: npt)]) [] =
      setExtension (init ++ [component (before ++ ['.'])]) [] := by
    simp [withExtension, extension, fileName, hext, ← htake]
  rw [hcut]
  by_cases hdot : before = ['.']
  · subst hdot
    simp [component, setExtension, fileStem, fileName]
  · have hnormal : component (before ++ ['.']) = .normal (before ++ ['.']) := by
      rw [component, if_neg, if_neg]
      · intro h
        exact hdot (List.append_cancel_right (h : before ++ ['.'] = ['.'] ++ ['.']))
      · intro h
        exact hne (List.append_cancel_right (h : before ++ ['.'] = [] ++ ['.']))
    rw [hnormal, setExtension_append, if_neg hdot, if_pos rfl, List.append_nil,
      stemOf_append hne (List.not_mem_nil)]

theorem segmentsOf_eq_some {path : Path} {segments : List (List Char)} :
    segmentsOf path.components = some segments ↔
      ∃ dirs before, path.components = dirs.map .normal ++ [.normal (before ++ '.' :: npt)] ∧
        IsName before ∧ segments = dirs ++ [before] := by
  refine ⟨fun h => ?_, ?_⟩
  · unfold segmentsOf at h
    split at h
    · next hext =>
      obtain ⟨name, hname, hnpt⟩ := Option.bind_eq_some_iff.mp hext
      obtain ⟨before, hne, rfl, -⟩ := extensionOf_eq_some.mp hnpt
      obtain ⟨init, hpath⟩ : ∃ init, path.components = init ++ [.normal (before ++ '.' :: npt)] := by
        unfold fileName at hname
        split at hname
        · next last hlast =>
          cases hname
          exact List.getLast?_eq_some_iff.mp hlast
        · cases hname
      have hslash : '/' ∉ before := by
        have hvalid := path.names (before ++ '.' :: npt) (by simp [hpath])
        exact fun hmem => hvalid.2.2.2 (List.mem_append_left _ hmem)
      rw [hpath, withExtension_nil hne] at h
      split at h
      · cases h
      · next segments' hsegments =>
        split at h
        · cases h
        · cases h
          have hnormal := mapM_normalName.mp hsegments
          obtain ⟨dirs, lasts, rfl, hdirs, hlasts⟩ := List.map_eq_append_iff.mp hnormal.symm
          obtain ⟨last, rfl, hlast⟩ := List.map_eq_singleton_iff.mp hlasts
          by_cases hdot : before = ['.']
          · rw [if_pos hdot] at hlast
            cases hlast
          · rw [if_neg hdot, component, if_neg hdot] at hlast
            by_cases hdots : before = ['.', '.']
            · rw [if_pos hdots] at hlast
              cases hlast
            · rw [if_neg hdots] at hlast
              cases hlast
              exact ⟨dirs, _, by rw [hpath, hdirs], ⟨hne, hdot, hdots, hslash⟩, rfl⟩
    · cases h
  · rintro ⟨dirs, before, hpath, hbefore, rfl⟩
    have hext : extension path.components = some npt := by
      rw [extension, hpath, fileName]
      simp only [List.getLast?_append, List.getLast?_singleton, Option.some_or, Option.bind_some]
      exact extensionOf_eq_some.mpr ⟨before, hbefore.1, rfl, npt_no_dot⟩
    have hsegments : (withExtension path.components []).mapM normalName =
        some (dirs ++ [before]) := by
      rw [hpath, withExtension_nil hbefore.1, if_neg hbefore.2.1, component_of_isName hbefore]
      exact mapM_normalName.mpr (by simp)
    simp [segmentsOf, hext, hsegments]

theorem names_of_segmentsOf {path : Path} {segments : List (List Char)}
    (h : segmentsOf path.components = some segments) :
    (∀ segment ∈ segments, IsName segment) ∧ segments ≠ [] := by
  obtain ⟨dirs, before, hpath, hbefore, rfl⟩ := segmentsOf_eq_some.mp h
  refine ⟨fun segment hsegment => ?_, by simp⟩
  rcases List.mem_append.mp hsegment with hdir | hlast
  · refine path.names segment ?_
    rw [hpath]
    exact List.mem_append_left _ (List.mem_map_of_mem hdir)
  · rw [List.mem_singleton.mp hlast]
    exact hbefore

/-- No path that has another extension, that is empty, or that is not made of names alone is the
file of a module. -/
def ModulePath.fromRelativeNptPath (path : Path) : Option ModulePath :=
  match h : segmentsOf path.components with
  | none => none
  | some segments => some ⟨segments, (names_of_segmentsOf h).1, (names_of_segmentsOf h).2⟩

theorem ModulePath.relativeFile_append {dirs : List (List Char)} {last : List Char}
    (hlast : IsName last) :
    relativeFile (dirs ++ [last]) =
      dirs.map .normal ++ [.normal (stemOf last ++ '.' :: npt)] := by
  have hname : IsName (stemOf last ++ '.' :: npt) :=
    isName_append_npt (stemOf_ne_nil hlast.1) fun h => hlast.2.2.2 (mem_of_mem_stemOf h)
  rw [relativeFile, List.map_append, List.map_singleton, setExtension_append,
    if_neg (by decide), component_of_isName hname]

namespace ModulePath

theorem exists_append (path : ModulePath) :
    ∃ dirs last, path.segments = dirs ++ [last] ∧ (∀ dir ∈ dirs, IsName dir) ∧ IsName last := by
  have hsplit := (List.dropLast_append_getLast path.ne_nil).symm
  refine ⟨_, _, hsplit, fun dir hdir => ?_, path.names _ (List.getLast_mem path.ne_nil)⟩
  exact path.names dir (List.dropLast_subset _ hdir)

/-- The file a module's source lives at. -/
def toRelativeNptPath (path : ModulePath) : Path where
  components := relativeFile path.segments
  names := by
    obtain ⟨dirs, last, hsegments, hdirs, hlast⟩ := path.exists_append
    intro name hname
    rw [hsegments, relativeFile_append hlast] at hname
    rcases List.mem_append.mp hname with hname | hname
    · obtain ⟨dir, hdir, heq⟩ := List.mem_map.mp hname
      cases heq
      exact hdirs _ hdir
    · cases List.mem_singleton.mp hname
      exact isName_append_npt (stemOf_ne_nil hlast.1) fun h => hlast.2.2.2 (mem_of_mem_stemOf h)

theorem fromRelativeNptPath_eq_some {path : Path} {m : ModulePath} :
    fromRelativeNptPath path = some m ↔
      ∃ dirs before, path.components = dirs.map .normal ++ [.normal (before ++ '.' :: npt)] ∧
        m.segments = dirs ++ [before] := by
  refine ⟨fun h => ?_, ?_⟩
  · unfold fromRelativeNptPath at h
    split at h
    · cases h
    · next segments hsegments =>
      cases h
      obtain ⟨dirs, before, hpath, -, rfl⟩ := segmentsOf_eq_some.mp hsegments
      exact ⟨dirs, before, hpath, rfl⟩
  · rintro ⟨dirs, before, hpath, hm⟩
    have hbefore : IsName before := m.names before (by simp [hm])
    have hsegments : segmentsOf path.components = some m.segments :=
      segmentsOf_eq_some.mpr ⟨dirs, before, hpath, hbefore, hm⟩
    unfold fromRelativeNptPath
    split
    · next hnone => cases hnone.symm.trans hsegments
    · next segments hsome =>
      obtain rfl := Option.some.inj (hsome.symm.trans hsegments)
      rfl

theorem toRelativeNptPath_components {m : ModulePath} {dirs : List (List Char)} {last : List Char}
    (h : m.segments = dirs ++ [last]) :
    m.toRelativeNptPath.components =
      dirs.map .normal ++ [.normal (stemOf last ++ '.' :: npt)] := by
  have hlast : IsName last := m.names last (by simp [h])
  change relativeFile m.segments = _
  rw [h, relativeFile_append hlast]

theorem fromRelativeNptPath_inj {p q : Path} {m : ModulePath}
    (hp : fromRelativeNptPath p = some m) (hq : fromRelativeNptPath q = some m) : p = q := by
  obtain ⟨dirs, before, hpath, hm⟩ := fromRelativeNptPath_eq_some.mp hp
  obtain ⟨dirs', before', hpath', hm'⟩ := fromRelativeNptPath_eq_some.mp hq
  obtain ⟨rfl, hlast⟩ := List.append_inj' (hm.symm.trans hm') rfl
  cases hlast
  exact Path.ext (hpath.trans hpath'.symm)

/-- The path comes back exactly where the stem of its file name has no dot behind its first
character: the last dot of such a stem is taken for the beginning of an extension. -/
theorem toRelativeNptPath_fromRelativeNptPath_iff {path : Path} {m : ModulePath}
    {dirs : List (List Char)} {before : List Char}
    (hpath : path.components = dirs.map .normal ++ [.normal (before ++ '.' :: npt)])
    (hm : m.segments = dirs ++ [before]) :
    m.toRelativeNptPath = path ↔ '.' ∉ before.tail := by
  rw [← stemOf_eq_self]
  refine ⟨fun h => ?_, fun h => ?_⟩
  · have hcomponents := congrArg Path.components h
    rw [hpath, toRelativeNptPath_components hm] at hcomponents
    have hlast := List.append_cancel_left hcomponents
    simpa using hlast
  · refine Path.ext ?_
    rw [toRelativeNptPath_components hm, h, hpath]

/-! ### Dotted names -/

theorem eq_of_append_dot {a b x y : List Char} (hb : '.' ∉ b)
    (h : ∃ c, b = a ++ c ∧ '.' :: x = c ++ '.' :: y) : a = b ∧ x = y := by
  obtain ⟨c, rfl, h⟩ := h
  cases c with
  | nil => exact ⟨(List.append_nil a).symm, (List.cons.inj h).2⟩
  | cons d c =>
    obtain ⟨rfl, -⟩ := List.cons.inj h
    exact absurd (by simp) hb

theorem append_dot_inj {a b x y : List Char} (ha : '.' ∉ a) (hb : '.' ∉ b)
    (h : a ++ '.' :: x = b ++ '.' :: y) : a = b ∧ x = y := by
  rcases List.append_eq_append_iff.mp h with hfirst | hsecond
  · exact eq_of_append_dot hb hfirst
  · obtain ⟨hab, hxy⟩ := eq_of_append_dot ha hsecond
    exact ⟨hab.symm, hxy.symm⟩

theorem dotted_inj {segments segments' : List (List Char)}
    (h : ∀ segment ∈ segments, '.' ∉ segment) (h' : ∀ segment ∈ segments', '.' ∉ segment)
    (hne : segments ≠ []) (hne' : segments' ≠ [])
    (hdotted : List.intercalate ['.'] segments = List.intercalate ['.'] segments') :
    segments = segments' := by
  induction segments generalizing segments' with
  | nil => exact absurd rfl hne
  | cons a rest ih =>
    cases segments' with
    | nil => exact absurd rfl hne'
    | cons b rest' =>
      have ha : '.' ∉ a := h a List.mem_cons_self
      have hb : '.' ∉ b := h' b List.mem_cons_self
      cases rest with
      | nil =>
        cases rest' with
        | nil => simpa using hdotted
        | cons c rest' =>
          rw [List.intercalate_singleton, List.intercalate_cons_cons] at hdotted
          refine absurd ?_ ha
          rw [hdotted]
          simp
      | cons c rest =>
        cases rest' with
        | nil =>
          rw [List.intercalate_singleton, List.intercalate_cons_cons] at hdotted
          refine absurd ?_ hb
          rw [← hdotted]
          simp
        | cons d rest' =>
          rw [List.intercalate_cons_cons, List.intercalate_cons_cons, List.append_assoc,
            List.append_assoc, List.singleton_append, List.singleton_append] at hdotted
          obtain ⟨rfl, hrest⟩ := append_dot_inj ha hb hdotted
          rw [ih (fun s hs => h s (List.mem_cons_of_mem _ hs))
            (fun s hs => h' s (List.mem_cons_of_mem _ hs)) (List.cons_ne_nil c rest)
            (List.cons_ne_nil d rest') hrest]

theorem slash_notMem_dotted {segments : List (List Char)} (h : ∀ s ∈ segments, IsName s) :
    '/' ∉ List.intercalate ['.'] segments := by
  intro hmem
  induction segments with
  | nil => cases hmem
  | cons s segments ih =>
    cases segments with
    | nil => exact (h s List.mem_cons_self).2.2.2 (by simpa using hmem)
    | cons s' segments =>
      rw [List.intercalate_cons_cons, List.mem_append, List.mem_append] at hmem
      rcases hmem with (hmem | hmem) | hmem
      · exact (h s List.mem_cons_self).2.2.2 hmem
      · exact absurd hmem (by decide)
      · exact ih (fun t ht => h t (List.mem_cons_of_mem _ ht)) hmem

theorem exists_flat (m : ModulePath) (hseveral : 1 < m.segments.length) :
    ∃ (q : Path) (m' : ModulePath), fromRelativeNptPath q = some m' ∧ m'.dotted = m.dotted ∧
      m'.segments.length = 1 := by
  obtain ⟨dirs, last, hsegments, -, hlast⟩ := m.exists_append
  obtain ⟨a, b, rest, hab⟩ : ∃ a b rest, m.segments = a :: b :: rest := by
    cases hm : m.segments with
    | nil => simp [hm] at hseveral
    | cons a rest =>
      cases rest with
      | nil => simp [hm] at hseveral
      | cons b rest => exact ⟨a, b, rest, rfl⟩
  have hdotted : m.dotted = a ++ '.' :: List.intercalate ['.'] (b :: rest) := by
    rw [dotted, hab, List.intercalate_cons_cons, List.append_assoc, List.singleton_append]
  have ha : a ≠ [] := (m.names a (by simp [hab])).1
  have hb : List.intercalate ['.'] (b :: rest) ≠ [] := by
    have hbne : b ≠ [] := (m.names b (by simp [hab])).1
    cases rest with
    | nil => simpa using hbne
    | cons c rest => simp [List.intercalate_cons_cons]
  have hname : IsName m.dotted := by
    have hlength : 2 < m.dotted.length := by
      have hapos := List.length_pos_iff.mpr ha
      have hbpos := List.length_pos_iff.mpr hb
      rw [hdotted, List.length_append, List.length_cons]
      omega
    refine ⟨?_, ?_, ?_, slash_notMem_dotted m.names⟩
    · intro h
      simp [h] at hlength
    · intro h
      simp [h] at hlength
    · intro h
      simp [h] at hlength
  refine ⟨⟨[.normal (m.dotted ++ '.' :: npt)], ?_⟩, ⟨[m.dotted], ?_, ?_⟩, ?_, ?_, rfl⟩
  · intro name hmem
    cases List.mem_singleton.mp hmem
    exact isName_append_npt hname.1 hname.2.2.2
  · intro segment hsegment
    rw [List.mem_singleton.mp hsegment]
    exact hname
  · exact List.cons_ne_nil _ _
  · exact fromRelativeNptPath_eq_some.mpr ⟨[], m.dotted, rfl, rfl⟩
  · simp [dotted]

/-- A path comes back from its module, and no other path has the dotted name of its module. -/
def OneToOne (path : Path) (m : ModulePath) : Prop :=
  m.toRelativeNptPath = path ∧
    ∀ q m', fromRelativeNptPath q = some m' → m'.dotted = m.dotted → q = path

/-- No segment has a dot in it. -/
def IsPlain (m : ModulePath) : Prop := ∀ segment ∈ m.segments, '.' ∉ segment

end ModulePath

/-- A file of the source root itself, whose stem has no dot behind its first character. -/
def Path.IsFlat (path : Path) : Prop :=
  path.components.length = 1 ∧ ∀ stem ∈ fileStem path.components, '.' ∉ stem.tail

namespace ModulePath

theorem isFlat_iff {path : Path} {dirs : List (List Char)} {before : List Char}
    (hpath : path.components = dirs.map .normal ++ [.normal (before ++ '.' :: npt)])
    (hne : before ≠ []) : path.IsFlat ↔ dirs = [] ∧ '.' ∉ before.tail := by
  have hstem : fileStem path.components = some before := by
    rw [fileStem, hpath, fileName]
    simp [stemOf_append hne npt_no_dot]
  have hlength : path.components.length = 1 ↔ dirs = [] := by
    rw [hpath]
    simp
  rw [Path.IsFlat, hlength, hstem]
  simp

/-- The dotted name of a single segment with no dot behind its first character is of that segment
alone. -/
theorem segments_of_dotted {m : ModulePath} {segment : List Char} (hdot : '.' ∉ segment.tail)
    (h : m.dotted = segment) : m.segments = [segment] := by
  cases hm : m.segments with
  | nil => exact absurd hm m.ne_nil
  | cons a rest =>
    rw [dotted, hm] at h
    cases rest with
    | nil => rw [← h, List.intercalate_singleton]
    | cons b rest =>
      have ha : a ≠ [] := (m.names a (by simp [hm])).1
      obtain ⟨c, a', rfl⟩ := List.exists_cons_of_ne_nil ha
      rw [List.intercalate_cons_cons] at h
      refine absurd ?_ hdot
      rw [← h]
      simp

/-- A path corresponds to its module alone exactly where it is a file of the source root itself
whose stem has no dot behind its first character. Among paths with no dot in a directory or a
stem the two correspond one to one. -/
theorem oneToOne_iff (path : Path) (m : ModulePath) (h : fromRelativeNptPath path = some m) :
    (m.OneToOne path ↔ path.IsFlat) ∧
      (m.IsPlain → m.toRelativeNptPath = path ∧ ∀ q m', fromRelativeNptPath q = some m' →
        m'.IsPlain → m'.dotted = m.dotted → q = path) := by
  obtain ⟨dirs, before, hpath, hm⟩ := fromRelativeNptPath_eq_some.mp h
  have hbefore : IsName before := m.names before (by simp [hm])
  have hback := toRelativeNptPath_fromRelativeNptPath_iff hpath hm
  refine ⟨?_, fun hplain => ⟨?_, ?_⟩⟩
  · rw [isFlat_iff hpath hbefore.1]
    refine ⟨?_, ?_⟩
    · rintro ⟨hsame, halone⟩
      refine ⟨?_, hback.mp hsame⟩
      by_contra hdirs
      have hseveral : 1 < m.segments.length := by
        have hpos := List.length_pos_iff.mpr hdirs
        rw [hm, List.length_append, List.length_singleton]
        omega
      obtain ⟨q, m', hq, hdotted, hone⟩ := m.exists_flat hseveral
      obtain rfl := halone q m' hq hdotted
      obtain rfl := Option.some.inj (h.symm.trans hq)
      omega
    · rintro ⟨rfl, hdot⟩
      refine ⟨hback.mpr hdot, fun q m' hq hdotted => ?_⟩
      have hsegments : m'.segments = m.segments := by
        have hone : m.dotted = before := by
          rw [dotted, hm]
          simp
        rw [segments_of_dotted hdot (hdotted.trans hone), hm]
        rfl
      obtain rfl : m' = m := ModulePath.ext hsegments
      exact fromRelativeNptPath_inj hq h
  · exact hback.mpr fun hdot => hplain before (by simp [hm]) (List.mem_of_mem_tail hdot)
  · intro q m' hq hplain' hdotted
    have hsegments : m'.segments = m.segments :=
      dotted_inj hplain' hplain m'.ne_nil m.ne_nil hdotted
    obtain rfl : m' = m := ModulePath.ext hsegments
    exact fromRelativeNptPath_inj hq h

/-- The file `math.npt`. -/
theorem oneToOne_iff_math :
    ∃ path m, fromRelativeNptPath path = some m ∧ m.OneToOne path := by
  have hnames : ∀ name, Component.normal name ∈ [Component.normal "math.npt".toList] →
      IsName name := by
    intro name hname
    cases List.mem_singleton.mp hname
    decide
  have hsegments : ∀ name ∈ ["math".toList], IsName name := by decide
  have hfrom : fromRelativeNptPath ⟨_, hnames⟩ = some ⟨_, hsegments, by decide⟩ :=
    fromRelativeNptPath_eq_some.mpr ⟨[], "math".toList, rfl, rfl⟩
  have hpath : (Path.mk _ hnames).components =
      ([] : List (List Char)).map .normal ++ [.normal ("math".toList ++ '.' :: npt)] := rfl
  exact ⟨_, _, hfrom, (oneToOne_iff _ _ hfrom).1.mpr
    ((isFlat_iff hpath (by decide)).mpr ⟨rfl, by decide⟩)⟩

end ModulePath

/-! ### The entry of a manifest -/

/-- The parts of a text between the separators of either platform. -/
def splitSeparators : List Char → List (List Char)
  | [] => [[]]
  | c :: cs =>
    if c = '/' ∨ c = '\\' then [] :: splitSeparators cs
    else match splitSeparators cs with
      | [] => [[c]]
      | part :: parts => (c :: part) :: parts

/-- The parts pushed onto the path resolved so far, each a name. -/
def resolveParts (relative : List Char) :
    List (List Char) → List (List Char) → Except String (List (List Char))
  | [], resolved => .ok resolved
  | part :: parts, resolved =>
    if part = [] ∨ part = ['.'] then resolveParts relative parts resolved
    else if part = ['.', '.'] then
      .error ("path `" ++ String.ofList relative ++ "` may not contain `..`")
    else if ':' ∈ part then
      .error ("path `" ++ String.ofList relative ++ "` must not contain `:`")
    else resolveParts relative parts (resolved ++ [part])

/-- The names on a path that a manifest gives, from the directory it is relative to. -/
def resolveRelativePath (relative : List Char) : Except String (List (List Char)) :=
  if relative = [] then .error "path must not be empty"
  else if relative.head? = some '/' ∨ relative.head? = some '\\' then
    .error ("path `" ++ String.ofList relative ++ "` must be relative, not absolute/rooted")
  else if relative.head?.any Char.isAlpha ∧ relative[1]? = some ':' then
    .error ("path `" ++ String.ofList relative ++ "` must be relative, not drive-qualified")
  else do
    let resolved ← resolveParts relative (splitSeparators relative) []
    if resolved = [] then
      .error ("path `" ++ String.ofList relative ++ "` has no path segments")
    else .ok resolved

theorem slash_notMem_splitSeparators {text part : List Char} (h : part ∈ splitSeparators text) :
    '/' ∉ part := by
  induction text generalizing part with
  | nil =>
    rw [List.mem_singleton.mp h]
    exact List.not_mem_nil
  | cons c text ih =>
    rw [splitSeparators] at h
    split at h
    · rcases List.mem_cons.mp h with rfl | h
      · exact List.not_mem_nil
      · exact ih h
    · next hc =>
      split at h
      · rw [List.mem_singleton.mp h]
        intro hmem
        exact hc (Or.inl (List.mem_singleton.mp hmem).symm)
      · next first parts hparts =>
        rw [hparts] at ih
        rcases List.mem_cons.mp h with rfl | h
        · intro hmem
          rcases List.mem_cons.mp hmem with heq | hmem
          · exact hc (Or.inl heq.symm)
          · exact ih List.mem_cons_self hmem
        · exact ih (List.mem_cons_of_mem _ h)

theorem isName_of_resolveParts {relative : List Char} {parts resolved names : List (List Char)}
    (hparts : ∀ part ∈ parts, '/' ∉ part) (hresolved : ∀ name ∈ resolved, IsName name)
    (h : resolveParts relative parts resolved = .ok names) : ∀ name ∈ names, IsName name := by
  induction parts generalizing resolved with
  | nil =>
    cases h
    exact hresolved
  | cons part parts ih =>
    have hrest : ∀ p ∈ parts, '/' ∉ p := fun p hp => hparts p (List.mem_cons_of_mem _ hp)
    rw [resolveParts] at h
    split at h
    · exact ih hrest hresolved h
    · next hskip =>
      split at h
      · cases h
      · next hdots =>
        split at h
        · cases h
        · refine ih hrest ?_ h
          intro name hname
          rcases List.mem_append.mp hname with hname | hname
          · exact hresolved name hname
          · rw [List.mem_singleton.mp hname]
            exact ⟨fun hnil => hskip (Or.inl hnil), fun hdot => hskip (Or.inr hdot), hdots,
              hparts part List.mem_cons_self⟩

theorem isName_of_resolveRelativePath {relative : List Char} {names : List (List Char)}
    (h : resolveRelativePath relative = .ok names) : ∀ name ∈ names, IsName name := by
  unfold resolveRelativePath at h
  split_ifs at h
  cases hparts : resolveParts relative (splitSeparators relative) [] with
  | error reason =>
    rw [hparts] at h
    cases h
  | ok resolved =>
    rw [hparts] at h
    change (if resolved = [] then _ else Except.ok resolved) = Except.ok names at h
    split_ifs at h
    cases h
    exact isName_of_resolveParts (fun part => slash_notMem_splitSeparators)
      (fun name hname => by cases hname) hparts

/-- The path made of these names. -/
def Path.ofNames (names : List (List Char)) (h : ∀ name ∈ names, IsName name) : Path where
  components := names.map .normal
  names name hname := by
    obtain ⟨name', hmem, heq⟩ := List.mem_map.mp hname
    cases heq
    exact h _ hmem

/-- The file that the entry of a manifest names and the module it is loaded as. -/
def entryModule (entry : List Char) : Option (Path × ModulePath) :=
  match h : resolveRelativePath entry with
  | .error _ => none
  | .ok names =>
    let path := Path.ofNames names (isName_of_resolveRelativePath h)
    (ModulePath.fromRelativeNptPath path).map fun m => (path, m)

/-- For the entry `a.b.npt` the file `a.npt` is loaded. -/
theorem entry_with_dot_lost :
    (entryModule "a.b.npt".toList).map
        (fun entry => (entry.1.components, entry.2.toRelativeNptPath.components)) =
      some ([.normal "a.b.npt".toList], [.normal "a.npt".toList]) ∧
    ¬∀ path m, ModulePath.fromRelativeNptPath path = some m → m.OneToOne path := by
  refine ⟨by decide, fun h => ?_⟩
  have hnames : ∀ name ∈ ["a.b.npt".toList], IsName name := by decide
  have hsegments : ∀ name ∈ ["a.b".toList], IsName name := by decide
  have hone := h (.ofNames _ hnames) ⟨_, hsegments, by decide⟩
    (ModulePath.fromRelativeNptPath_eq_some.mpr ⟨[], "a.b".toList, rfl, rfl⟩)
  have hlost : ModulePath.relativeFile ["a.b".toList] ≠ ["a.b.npt".toList].map .normal := by decide
  exact hlost (congrArg Path.components hone.1)

end Napitia.Project
