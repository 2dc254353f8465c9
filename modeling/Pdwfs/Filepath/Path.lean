import Mathlib

/-!
# Paths

Lexical processing of slash-separated paths, as lists of characters.

* `clean` — the shortest path equivalent to the given one by purely lexical
  processing: empty components and `.` are dropped, and `..` cancels the component
  before it.
* `abs`, `dir` — the absolute form of a path, and all but its last component.
* `IsCleanAbs` — an absolute path in clean form.  Such a path is its own absolute
  form (`abs_of_isCleanAbs`), and so is its directory (`isCleanAbs_dir`).
* `abs_clean` — cleaning a path, relative or not, does not change its absolute form.
* `Under` — a path is another one, or below it; it is if its directory is
  (`under_iff_dir`).

## Texts and stacks

`clean` is defined by a stack: the components come one after the other, and
`pushPart` says what each of them does to the components before it.  A path in clean
form is the text of a stack (`render`), so a statement about clean paths is proved
for stacks and carried over by `parts_render`: the components of the text are the
stack again.

The two cases of a path, absolute and relative, differ only in what `..` does to an
empty stack.  It is dropped at the root, and it is kept in a relative path.
`abs_clean` has to deal with that: the `..` that a relative path is left with cancel
components of the working directory, and `pushPart_foldl` says that it makes no
difference whether they do so before or after the path has been cleaned.

## Below

The keys of the store are made from paths, and a mount is found by comparing
prefixes.  `Under` is the relation that is meant by that, with the component
boundary, and `Under.isPrefix` is the prefix that the comparison sees.  The two are
not the same: `/ab` begins with `/a` and is not below it.
-/

namespace Filepath

/-- Push a component on the stack of the components before it, the last one first.
`..` cancels the component before it; at the root there is nothing to cancel, and in
a relative path it stays. -/
def pushPart (rooted : Bool) (stack : List (List Char)) (part : List Char) : List (List Char) :=
  if part = [] ∨ part = ['.'] then stack
  else if part = ['.', '.'] then
    match stack with
    | [] => if rooted then [] else [part]
    | top :: below => if top = ['.', '.'] then part :: stack else below
  else part :: stack

/-- The components of a path that are left. -/
def parts (rooted : Bool) (path : List Char) : List (List Char) :=
  ((path.splitOn '/').foldl (pushPart rooted) []).reverse

/-- The path begins at the root. -/
def isAbs (path : List Char) : Bool := path.head? = some '/'

/-- The absolute path with the components `names`. -/
def render (names : List (List Char)) : List Char := '/' :: ['/'].intercalate names

/-- The lexical normal form of a path. -/
def clean (path : List Char) : List Char :=
  if isAbs path then render (parts true path)
  else if parts false path = [] then ['.']
  else ['/'].intercalate (parts false path)

/-- The absolute form of a path, in the working directory `cwd`. -/
def abs (cwd path : List Char) : List Char :=
  if isAbs path then clean path else clean (cwd ++ '/' :: path)

/-- A working directory. -/
abbrev WorkingDir := { cwd : List Char // isAbs cwd = true }

/-- All but the last component of a path. -/
def dir (path : List Char) : List Char :=
  clean (path.reverse.dropWhile (· ≠ '/')).reverse

/-! ## Absolute paths in clean form -/

/-- A component of a path in clean form.  The four conditions are those for which
`pushPart` does something else than to push it. -/
structure IsName (part : List Char) : Prop where
  notEmpty : part ≠ []
  notDot : part ≠ ['.']
  notDotDot : part ≠ ['.', '.']
  noSlash : '/' ∉ part

/-- An absolute path in clean form: a slash, and the components with slashes in
between. -/
def IsCleanAbs (path : List Char) : Prop :=
  ∃ names, (∀ name ∈ names, IsName name) ∧ path = render names

/-- The components between slashes have no slash. -/
theorem noSlash_of_mem_splitOn {path part : List Char} (member : part ∈ path.splitOn '/') :
    '/' ∉ part := by
  induction path generalizing part with
  | nil =>
      obtain rfl : part = [] := by simpa [List.splitOn_nil] using member
      simp
  | cons c rest ih =>
      rw [List.splitOn_cons_eq_if_modifyHead] at member
      by_cases slash : c = '/'
      · rw [if_pos (by simp [slash]), List.mem_cons] at member
        rcases member with rfl | later
        · simp
        · exact ih later
      · rw [if_neg (by simp [slash])] at member
        obtain ⟨first, others, split⟩ := List.exists_cons_of_ne_nil (List.splitOn_ne_nil '/' rest)
        rw [split, List.modifyHead_cons, List.mem_cons] at member
        rcases member with rfl | later
        · have firstClean := @ih first (by simp [split])
          simp [Ne.symm slash, firstClean]
        · exact ih (by simp [split, later])

/-! The cases of `pushPart`. -/

theorem pushPart_of_dropped {rooted : Bool} {stack : List (List Char)} {part : List Char}
    (dropped : part = [] ∨ part = ['.']) : pushPart rooted stack part = stack :=
  if_pos dropped

theorem pushPart_of_name {rooted : Bool} {stack : List (List Char)} {part : List Char}
    (kept : ¬(part = [] ∨ part = ['.'])) (notUp : part ≠ ['.', '.']) :
    pushPart rooted stack part = part :: stack :=
  (if_neg kept).trans (if_neg notUp)

theorem pushPart_up_nil (rooted : Bool) :
    pushPart rooted [] ['.', '.'] = if rooted then [] else [['.', '.']] := rfl

theorem pushPart_up_cons (rooted : Bool) (top : List Char) (below : List (List Char)) :
    pushPart rooted (top :: below) ['.', '.'] =
      if top = ['.', '.'] then ['.', '.'] :: top :: below else below := rfl

/-- What is on the stack are components of a clean path. -/
theorem pushPart_isName {stack : List (List Char)} {part : List Char} (noSlash : '/' ∉ part)
    (names : ∀ name ∈ stack, IsName name) :
    ∀ name ∈ pushPart true stack part, IsName name := by
  by_cases dropped : part = [] ∨ part = ['.']
  · rwa [pushPart_of_dropped dropped]
  · by_cases up : part = ['.', '.']
    · subst up
      cases stack with
      | nil => simp [pushPart_up_nil]
      | cons top below =>
          rw [pushPart_up_cons, if_neg (names top (by simp)).notDotDot]
          exact fun name member => names name (by simp [member])
    · rw [pushPart_of_name dropped up]
      intro name member
      rcases List.mem_cons.mp member with rfl | later
      · exact ⟨fun h => dropped (.inl h), fun h => dropped (.inr h), up, noSlash⟩
      · exact names name later

/-- The same for all components of a path. -/
theorem foldl_pushPart_isName {segments stack : List (List Char)}
    (noSlash : ∀ part ∈ segments, '/' ∉ part) (names : ∀ name ∈ stack, IsName name) :
    ∀ name ∈ segments.foldl (pushPart true) stack, IsName name := by
  induction segments generalizing stack with
  | nil => exact names
  | cons part rest ih =>
      exact ih (fun part' member => noSlash part' (by simp [member]))
        (pushPart_isName (noSlash part (by simp)) names)

/-- Names are pushed as they are. -/
theorem foldl_pushPart_of_isName (rooted : Bool) {names stack : List (List Char)}
    (each : ∀ name ∈ names, IsName name) :
    names.foldl (pushPart rooted) stack = names.reverse ++ stack := by
  induction names generalizing stack with
  | nil => rfl
  | cons name rest ih =>
      have this := each name (by simp)
      have pushed : pushPart rooted stack name = name :: stack :=
        pushPart_of_name (by simp [this.notEmpty, this.notDot]) this.notDotDot
      rw [List.foldl_cons, pushed, ih fun name' member => each name' (by simp [member])]
      simp

/-- The clean form of an absolute path is one in the sense of `IsCleanAbs`. -/
theorem isCleanAbs_clean {path : List Char} (rooted : isAbs path = true) :
    IsCleanAbs (clean path) := by
  refine ⟨parts true path, fun name member => ?_, by rw [clean, if_pos rooted]⟩
  rw [parts, List.mem_reverse] at member
  exact foldl_pushPart_isName (fun part inSplit => noSlash_of_mem_splitOn inSplit)
    (by simp) name member

/-- **An absolute form is clean.** -/
theorem isCleanAbs_abs {cwd : List Char} (rooted : isAbs cwd = true) (path : List Char) :
    IsCleanAbs (abs cwd path) := by
  unfold abs
  by_cases absolute : isAbs path = true
  · rw [if_pos absolute]
    exact isCleanAbs_clean absolute
  · rw [if_neg absolute]
    apply isCleanAbs_clean
    cases cwd with
    | nil => simp [isAbs] at rooted
    | cons c rest => simpa [isAbs] using rooted

/-- The components of an absolute path in clean form, also with a slash at its end. -/
theorem parts_render {names : List (List Char)} (each : ∀ name ∈ names, IsName name)
    (slash : List Char) (isSlash : slash = [] ∨ slash = ['/'] ∧ names ≠ []) :
    parts true (render names ++ slash) = names := by
  have split : ∃ before after, (render names ++ slash).splitOn '/' = before ++ names ++ after ∧
      (∀ part ∈ before, part = []) ∧ ∀ part ∈ after, part = [] := by
    by_cases none : names = []
    · subst none
      obtain rfl : slash = [] := isSlash.resolve_right fun h => h.2 rfl
      exact ⟨[[], []], [], by decide, by simp, by simp⟩
    · have inner : (['/'].intercalate names).splitOn '/' = names :=
        List.splitOn_intercalate '/' (fun name member => (each name member).noSlash) none
      rcases isSlash with rfl | ⟨rfl, -⟩
      · refine ⟨[[]], [], ?_, by simp, by simp⟩
        rw [List.append_nil, render, List.splitOn_cons_eq_if_modifyHead, if_pos (by simp), inner]
        simp
      · refine ⟨[[]], [[]], ?_, by simp, by simp⟩
        rw [render, List.cons_append, List.splitOn_cons_eq_if_modifyHead, if_pos (by simp),
          List.splitOn_append_cons_self, inner, List.splitOn_nil]
        simp
  have skip : ∀ (segments stack : List (List Char)), (∀ part ∈ segments, part = []) →
      segments.foldl (pushPart true) stack = stack := by
    intro segments
    induction segments with
    | nil => exact fun _ _ => rfl
    | cons part rest ih =>
        intro stack empty
        rw [List.foldl_cons, pushPart_of_dropped (.inl (empty part (by simp)))]
        exact ih stack fun part' member => empty part' (by simp [member])
  obtain ⟨before, after, split, emptyBefore, emptyAfter⟩ := split
  rw [parts, split, List.foldl_append, List.foldl_append, skip before _ emptyBefore,
    foldl_pushPart_of_isName true each, skip after _ emptyAfter]
  simp

/-- A clean absolute path is its own absolute form, in any working directory. -/
theorem abs_of_isCleanAbs {path : List Char} (isClean : IsCleanAbs path) (cwd : List Char) :
    abs cwd path = path := by
  obtain ⟨names, each, rfl⟩ := isClean
  have rooted : isAbs (render names) = true := by simp [isAbs, render]
  have same := parts_render each [] (.inl rfl)
  rw [List.append_nil] at same
  rw [abs, if_pos rooted, clean, if_pos rooted, same]

/-- One more component. -/
theorem render_concat {names : List (List Char)} (nonempty : names ≠ []) (name : List Char) :
    render (names ++ [name]) = render names ++ '/' :: name := by
  have joined : ∀ names : List (List Char), names ≠ [] →
      ['/'].intercalate (names ++ [name]) = ['/'].intercalate names ++ '/' :: name := by
    intro names some
    induction names with
    | nil => exact absurd rfl some
    | cons first rest ih =>
        by_cases single : rest = []
        · subst single
          simp
        · rw [List.cons_append, List.intercalate_cons_of_ne_nil (by simp), ih single,
            List.intercalate_cons_of_ne_nil single]
          simp
  rw [render, joined names nonempty, render, List.cons_append]

/-- What is in front of the last slash, with that slash. -/
theorem rdropWhile_concat {name : List Char} (noSlash : '/' ∉ name) (front : List Char) :
    (front ++ '/' :: name).rdropWhile (· ≠ '/') = front ++ ['/'] := by
  have slashFree : ∀ c ∈ name.reverse, decide (c ≠ '/') = true := by
    intro c member
    simp only [List.mem_reverse] at member
    simp only [decide_eq_true_eq]
    rintro rfl
    exact noSlash member
  rw [List.rdropWhile, List.reverse_append, List.reverse_cons, List.append_assoc,
    List.singleton_append, List.dropWhile_append_of_pos slashFree]
  simp

/-- The directory of a clean absolute path is the path without its last component. -/
theorem dir_render {names : List (List Char)} {name : List Char}
    (each : ∀ name ∈ names, IsName name) (last : IsName name) :
    dir (render (names ++ [name])) = render names := by
  have cut : ∀ front : List Char,
      ((front ++ '/' :: name).reverse.dropWhile (· ≠ '/')).reverse = front ++ ['/'] :=
    rdropWhile_concat last.noSlash
  by_cases none : names = []
  · subst none
    have alone : render ([] ++ [name]) = [] ++ '/' :: name := by
      simp [render]
    rw [dir, alone, cut]
    decide
  · have front := render_concat none name
    have rooted : isAbs (render names ++ ['/']) = true := by simp [isAbs, render]
    rw [dir, front, cut, clean, if_pos rooted, parts_render each ['/'] (.inr ⟨rfl, none⟩)]

/-- The directory of the root is the root. -/
theorem dir_root : dir ['/'] = ['/'] := by decide

/-- **The directory of a clean absolute path** is one as well. -/
theorem isCleanAbs_dir {path : List Char} (isClean : IsCleanAbs path) :
    IsCleanAbs (dir path) := by
  obtain ⟨names, each, rfl⟩ := isClean
  rcases List.eq_nil_or_concat names with rfl | ⟨front, name, rfl⟩
  · exact ⟨[], by simp, dir_root⟩
  · rw [List.concat_eq_append] at each ⊢
    have eachFront : ∀ name ∈ front, IsName name := fun name member => each name (by simp [member])
    exact ⟨front, eachFront, dir_render eachFront (each name (by simp))⟩

/-- The directory of a path other than the root is shorter than the path.  So going
from a path to its directory ends. -/
theorem length_dir_lt {path : List Char} (isClean : IsCleanAbs path) (notRoot : path ≠ ['/']) :
    (dir path).length < path.length := by
  obtain ⟨names, each, rfl⟩ := isClean
  rcases List.eq_nil_or_concat names with rfl | ⟨front, name, rfl⟩
  · exact absurd rfl notRoot
  · rw [List.concat_eq_append] at each ⊢
    have eachFront : ∀ name ∈ front, IsName name := fun name member => each name (by simp [member])
    rw [dir_render eachFront (each name (by simp))]
    by_cases none : front = []
    · subst none
      have := List.length_pos_iff.mpr (each name (by simp)).notEmpty
      simpa [render] using this
    · rw [render_concat none]
      simp

/-- An absolute path is not empty. -/
theorem ne_nil_of_isCleanAbs {path : List Char} (isClean : IsCleanAbs path) : path ≠ [] := by
  obtain ⟨names, -, rfl⟩ := isClean
  simp [render]

/-- A path strictly below another is not its own directory, so an entry and the
directory that lists it are two paths with two sets of keys. -/
theorem dir_ne_self {mount path : List Char} (cleanMount : IsCleanAbs mount)
    (isClean : IsCleanAbs path) (below : mount <+: path) (notMount : path ≠ mount) :
    dir path ≠ path := by
  intro same
  by_cases root : path = ['/']
  · subst root
    rcases List.prefix_cons_iff.mp below with empty | ⟨rest, rfl, empty⟩
    · exact ne_nil_of_isCleanAbs cleanMount empty
    · obtain rfl := List.prefix_nil.mp empty
      exact notMount rfl
  · have := length_dir_lt isClean root
    rw [same] at this
    exact lt_irrefl _ this

/-! ## Relative paths -/

/-- The components that a path may be left with, `..` among them. -/
def Kept (part : List Char) : Prop := part ≠ [] ∧ part ≠ ['.']

/-- What is pushed is kept. -/
theorem kept_pushPart {rooted : Bool} {stack : List (List Char)} {part : List Char}
    (kept : ∀ part ∈ stack, Kept part) : ∀ part' ∈ pushPart rooted stack part, Kept part' := by
  by_cases dropped : part = [] ∨ part = ['.']
  · rwa [pushPart_of_dropped dropped]
  · by_cases up : part = ['.', '.']
    · subst up
      cases stack with
      | nil => cases rooted <;> simp [pushPart_up_nil, Kept]
      | cons top below =>
          rw [pushPart_up_cons]
          split
          · simpa [Kept] using kept
          · exact fun part' member => kept part' (by simp [member])
    · rw [pushPart_of_name dropped up]
      intro part' member
      rcases List.mem_cons.mp member with rfl | member
      · exact ⟨fun h => dropped (.inl h), fun h => dropped (.inr h)⟩
      · exact kept part' member

/-- What a stack does to another one below it: pushing the next component on both. -/
theorem pushPart_foldl {base stack : List (List Char)} {part : List Char}
    (kept : ∀ part ∈ stack, Kept part) :
    pushPart true (stack.reverse.foldl (pushPart true) base) part =
      (pushPart false stack part).reverse.foldl (pushPart true) base := by
  have pushed : ∀ (stack : List (List Char)) (part : List Char),
      (part :: stack).reverse.foldl (pushPart true) base =
        pushPart true (stack.reverse.foldl (pushPart true) base) part := by
    intro stack part
    rw [List.reverse_cons, List.foldl_append, List.foldl_cons, List.foldl_nil]
  by_cases dropped : part = [] ∨ part = ['.']
  · rw [pushPart_of_dropped dropped, pushPart_of_dropped dropped]
  · by_cases up : part = ['.', '.']
    · subst up
      cases stack with
      | nil => rfl
      | cons top below =>
          rw [pushPart_up_cons]
          by_cases dotdot : top = ['.', '.']
          · rw [if_pos dotdot, ← pushed]
          · -- The name on the top is pushed and cancelled again.
            have named := kept top (by simp)
            rw [if_neg dotdot, pushed, pushPart_of_name (by simp [named.1, named.2]) dotdot,
              pushPart_up_cons, if_neg dotdot]
    · rw [@pushPart_of_name false _ _ dropped up, pushed]

/-- The same for all components of a path. -/
theorem foldl_pushPart_foldl (base : List (List Char)) {segments stack : List (List Char)}
    (kept : ∀ part ∈ stack, Kept part) :
    segments.foldl (pushPart true) (stack.reverse.foldl (pushPart true) base) =
      (segments.foldl (pushPart false) stack).reverse.foldl (pushPart true) base := by
  induction segments generalizing stack with
  | nil => rfl
  | cons part rest ih =>
      rw [List.foldl_cons, List.foldl_cons, pushPart_foldl kept, ih (kept_pushPart kept)]

/-- The components of a relative path. -/
theorem kept_of_mem_parts {rooted : Bool} {path part : List Char}
    (member : part ∈ parts rooted path) : Kept part := by
  have all : ∀ (segments stack : List (List Char)), (∀ part ∈ stack, Kept part) →
      ∀ part ∈ segments.foldl (pushPart rooted) stack, Kept part := by
    intro segments
    induction segments with
    | nil => exact fun _ kept => kept
    | cons part rest ih => exact fun stack kept => ih _ (kept_pushPart kept)
  rw [parts, List.mem_reverse] at member
  exact all _ [] (by simp) part member

/-- A component of a path has no slash, whether it is relative or not. -/
theorem noSlash_of_mem_parts {rooted : Bool} {path part : List Char}
    (member : part ∈ parts rooted path) : '/' ∉ part := by
  have pushed : ∀ (stack : List (List Char)) (part : List Char), '/' ∉ part →
      (∀ part ∈ stack, '/' ∉ part) → ∀ part' ∈ pushPart rooted stack part, '/' ∉ part' := by
    intro stack part noSlash each
    by_cases dropped : part = [] ∨ part = ['.']
    · rwa [pushPart_of_dropped dropped]
    · by_cases up : part = ['.', '.']
      · subst up
        cases stack with
        | nil => cases rooted <;> simp [pushPart_up_nil]
        | cons top below =>
            rw [pushPart_up_cons]
            split
            · simpa using each
            · exact fun part' member => each part' (by simp [member])
      · rw [pushPart_of_name dropped up]
        simpa [noSlash] using each
  have all : ∀ (segments stack : List (List Char)), (∀ part ∈ segments, '/' ∉ part) →
      (∀ part ∈ stack, '/' ∉ part) →
      ∀ part ∈ segments.foldl (pushPart rooted) stack, '/' ∉ part := by
    intro segments
    induction segments with
    | nil => exact fun _ _ each => each
    | cons part rest ih =>
        exact fun stack noSlash each => ih _ (fun part' member => noSlash part' (by simp [member]))
          (pushed stack part (noSlash part (by simp)) each)
  rw [parts, List.mem_reverse] at member
  exact all _ [] (fun part inSplit => noSlash_of_mem_splitOn inSplit) (by simp) part member

/-- The components of a path are pushed on those of the directory in front of it. -/
theorem parts_join (rooted : Bool) (cwd path : List Char) :
    parts rooted (cwd ++ '/' :: path) =
      ((path.splitOn '/').foldl (pushPart rooted) (parts rooted cwd).reverse).reverse := by
  rw [parts, parts, List.splitOn_append_cons_self, List.foldl_append, List.reverse_reverse]

/-- **The absolute form of a path is that of its clean form**, in any working
directory.  The `..` at the front of a relative path in clean form cancel what they
would have cancelled in the path itself. -/
theorem abs_clean (cwd : WorkingDir) (path : List Char) : abs cwd (clean path) = abs cwd path := by
  by_cases absolute : isAbs path = true
  · rw [abs_of_isCleanAbs (isCleanAbs_clean absolute), abs, if_pos absolute]
  · -- The clean form is relative too, and has the components that are left.
    have relative : isAbs (clean path) = false ∧
        ∀ base, ((clean path).splitOn '/').foldl (pushPart true) base =
          (parts false path).foldl (pushPart true) base := by
      rw [clean, if_neg absolute]
      by_cases none : parts false path = []
      · rw [if_pos none, none]
        exact ⟨by decide, fun base => by
          rw [show ['.'].splitOn '/' = [['.']] by decide]
          rfl⟩
      · rw [if_neg none, List.splitOn_intercalate '/' (fun part => noSlash_of_mem_parts) none]
        refine ⟨?_, fun base => rfl⟩
        obtain ⟨first, rest, split⟩ := List.exists_cons_of_ne_nil none
        have member : first ∈ parts false path := by simp [split]
        have notEmpty := (kept_of_mem_parts member).1
        have noSlash := noSlash_of_mem_parts member
        obtain ⟨c, chars, rfl⟩ := List.exists_cons_of_ne_nil notEmpty
        have head : (['/'].intercalate (parts false path)).head? = some c := by
          rw [split]
          cases rest <;> simp [List.intercalate]
        have other : c ≠ '/' := fun same => noSlash (by simp [same])
        simp [isAbs, head, other]
    have rooted : ∀ path', isAbs (cwd.1 ++ '/' :: path') = true := by
      intro path'
      obtain ⟨cwd, rooted⟩ := cwd
      cases cwd with
      | nil => simp [isAbs] at rooted
      | cons c rest => simpa [isAbs] using rooted
    have cleaned : ∀ path', clean (cwd.1 ++ '/' :: path') =
        render (parts true (cwd.1 ++ '/' :: path')) := fun path' => if_pos (rooted path')
    generalize clean path = path' at relative ⊢
    rw [abs, if_neg (by simp [relative.1]), abs, if_neg absolute, cleaned, cleaned, parts_join,
      parts_join, relative.2]
    unfold parts
    congr 2
    exact (foldl_pushPart_foldl _ (by simp : ∀ part ∈ ([] : List (List Char)), Kept part)).symm

example : clean "/a//b/../c/.".toList = "/a/c".toList := by decide
example : abs "/home".toList "../etc/x".toList = "/etc/x".toList := by decide
example : dir "/a/b".toList = "/a".toList := by decide

/-! ## Paths below a path -/

/-- The prefix that the paths below `p` have in common: the path with a slash behind
it, which the root has already. -/
def asDirectory (p : List Char) : List Char := if p = ['/'] then p else p ++ ['/']

/-- The path `q` is `p`, or it is below `p` at a component boundary. -/
def Under (p q : List Char) : Prop := q = p ∨ asDirectory p <+: q

instance (p q : List Char) : Decidable (Under p q) := inferInstanceAs (Decidable (_ ∨ _))

/-- A path is under itself. -/
theorem Under.refl (p : List Char) : Under p p := .inl rfl

/-- What is under a path begins with it.  The converse is false. -/
theorem Under.isPrefix {p q : List Char} (under : Under p q) : p <+: q := by
  rcases under with rfl | below
  · exact List.prefix_refl _
  · rw [asDirectory] at below
    split at below
    · exact below
    · exact (List.prefix_append _ _).trans below

/-- What is under a path is no shorter than it. -/
theorem Under.length_le {p q : List Char} (under : Under p q) : p.length ≤ q.length :=
  under.isPrefix.length_le

/-- Every absolute path begins with the root. -/
theorem isPrefix_root {p : List Char} (isClean : IsCleanAbs p) : ['/'] <+: p := by
  obtain ⟨names, -, rfl⟩ := isClean
  exact ⟨_, rfl⟩

/-- A slash in front of the last component ends a prefix of what is in front of it. -/
theorem isPrefix_concat_iff {p front name : List Char} (noSlash : '/' ∉ name) :
    p ++ ['/'] <+: front ++ '/' :: name ↔ p = front ∨ p ++ ['/'] <+: front := by
  constructor
  · rintro ⟨rest, same⟩
    rw [List.append_assoc, List.singleton_append, List.append_eq_append_iff] at same
    rcases same with ⟨_ | ⟨c, between⟩, rfl, tail⟩ | ⟨_ | ⟨c, between⟩, rfl, tail⟩
    · exact .inl (by simp)
    · obtain ⟨rfl, -⟩ := List.cons.inj tail
      exact .inr ⟨between, by simp⟩
    · exact .inl (by simp)
    · obtain ⟨-, rfl⟩ := List.cons.inj tail
      exact absurd (by simp) noSlash
  · rintro (rfl | below)
    · exact ⟨name, by simp⟩
    · exact below.trans (List.prefix_append _ _)

/-- A path other than `p` is below `p` if and only if its directory is. -/
theorem under_iff_dir {p q : List Char} (isClean : IsCleanAbs p) (isClean' : IsCleanAbs q)
    (other : q ≠ p) : Under p q ↔ Under p (dir q) := by
  by_cases root : p = ['/']
  · subst root
    exact iff_of_true (.inr (isPrefix_root isClean'))
      (.inr (isPrefix_root (isCleanAbs_dir isClean')))
  obtain ⟨names, each, rfl⟩ := isClean'
  have nonempty := ne_nil_of_isCleanAbs isClean
  rcases List.eq_nil_or_concat names with rfl | ⟨front, name, rfl⟩
  · exact iff_of_eq (congrArg (Under p) dir_root.symm)
  rw [List.concat_eq_append] at each other ⊢
  have eachFront : ∀ name ∈ front, IsName name := fun name member => each name (by simp [member])
  have last := each name (by simp)
  rw [dir_render eachFront last, Under, Under, or_iff_right other, asDirectory, if_neg root]
  by_cases none : front = []
  · subst none
    have alone : render ([] ++ [name]) = [] ++ '/' :: name := by simp [render]
    rw [alone, isPrefix_concat_iff last.noSlash]
    refine iff_of_false ?_ ?_
    · rintro (rfl | below)
      · exact nonempty rfl
      · simp at below
    · rintro (same | below)
      · exact root same.symm
      · have longer := below.length_le
        have positive := List.length_pos_iff.mpr nonempty
        rw [List.length_append] at longer
        have single : (render []).length = 1 := rfl
        simp only [List.length_cons, List.length_nil] at longer
        omega
  · rw [render_concat none, isPrefix_concat_iff last.noSlash, eq_comm]

end Filepath
