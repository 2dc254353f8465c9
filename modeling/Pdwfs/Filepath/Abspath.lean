import Pdwfs.Filepath.Path

/-!
# The absolute form of a path in C

`abspath` of the C layer writes the components of a path one after the other behind
what it has already written, and backs up at each `..`.  In a clean working
directory what it has written in the end is the absolute form of the path
(`abspath_eq`).

## Two normal forms of one path

The Go layer computes the absolute form of a path by a stack of components, which is
what the `filepath` package documents.  The C layer has a text and no stack.  When
it comes to `..` it cuts off what is behind the last slash, and this is right only
as long as what has been written is the text of a stack: `Written` says so, and
`Written.pushComponent` that each component keeps it.

There are two texts for a stack that is not empty, with a slash at the end and
without, because backing up leaves the slash in front of the component that is cut
off.  The slash at the end is removed once, behind the loop.

What is modelled here is the text only.  That the function stays inside of its
buffer, and what the buffer holds, is in `Pdwfs.Intercept.PathBuffer`.
-/

namespace Filepath

/-- Back up to the previous component: `while ((--dest)[-1] != '/');`.  The slash in
front of the component stays. -/
def backUp (dest : List Char) : List Char := dest.dropLast.rdropWhile (· ≠ '/')

/-- Write the next component behind `dest`. -/
def pushComponent (dest part : List Char) : List Char :=
  if part = ['.'] then dest
  else if part = ['.', '.'] then
    -- Ignored at the root.
    if 1 < dest.length then backUp dest else dest
  else (if dest.getLast? = some '/' then dest else dest ++ ['/']) ++ part

/-- `realpath` without links, where nothing has to exist.  There is none of the empty path. -/
def abspath (cwd name : List Char) : Option (List Char) :=
  if name = [] then none
  else
    let dest := if isAbs name then ['/'] else cwd
    let rpath := ((name.splitOn '/').filter (· ≠ [])).foldl pushComponent dest
    if 1 < rpath.length ∧ rpath.getLast? = some '/' then some rpath.dropLast else some rpath

/-- What has been written is the path with the components of the stack, perhaps with
a slash at the end.  The empty stack has the text `/` only. -/
structure Written (dest : List Char) (stack : List (List Char)) : Prop where
  isName : ∀ name ∈ stack, IsName name
  eq : dest = render stack.reverse ∨ stack ≠ [] ∧ dest = render stack.reverse ++ ['/']

/-- A component does not end with a slash. -/
theorem IsName.getLast?_ne {name : List Char} (isName : IsName name) (front : List Char) :
    (front ++ name).getLast? ≠ some '/' := by
  intro last
  rw [List.getLast?_append_of_ne_nil _ isName.notEmpty] at last
  exact isName.noSlash (List.mem_of_getLast? last)

/-- A path with components, cut in front of the last one. -/
theorem render_cons_eq {top : List Char} {below : List (List Char)} :
    ∃ front, render (top :: below).reverse = front ++ '/' :: top ∧
      front ++ ['/'] = render below.reverse ++ (if below = [] then [] else ['/']) := by
  rw [List.reverse_cons]
  by_cases none : below = []
  · subst none
    exact ⟨[], by simp [render], by simp [render]⟩
  · exact ⟨render below.reverse, render_concat (by simpa using none) top, by rw [if_neg none]⟩

/-- The last character of a path with components is not a slash. -/
theorem getLast?_render_ne {top : List Char} {below : List (List Char)} (isName : IsName top) :
    (render (top :: below).reverse).getLast? ≠ some '/' := by
  obtain ⟨front, split, -⟩ := @render_cons_eq top below
  rw [split, List.append_cons]
  exact isName.getLast?_ne _

/-- Backing up removes the last component. -/
theorem backUp_concat {front top : List Char} (isName : IsName top) :
    backUp (front ++ '/' :: top) = front ++ ['/'] ∧
      backUp (front ++ '/' :: top ++ ['/']) = front ++ ['/'] := by
  have noSlash : '/' ∉ top.dropLast := fun member =>
    isName.noSlash (List.mem_of_mem_dropLast member)
  constructor
  · rw [backUp, List.dropLast_append_of_ne_nil (by simp),
      List.dropLast_cons_of_ne_nil isName.notEmpty]
    exact rdropWhile_concat noSlash front
  · rw [backUp, List.dropLast_concat]
    exact rdropWhile_concat isName.noSlash front

/-- **One component** does to the text what it does to the stack: it is dropped, it
cancels the component before it, or it is appended. -/
theorem Written.pushComponent {dest part : List Char} {stack : List (List Char)}
    (written : Written dest stack) (nonempty : part ≠ []) (noSlash : '/' ∉ part) :
    Written (pushComponent dest part) (pushPart true stack part) := by
  refine ⟨pushPart_isName noSlash written.isName, ?_⟩
  unfold Filepath.pushComponent
  by_cases dot : part = ['.']
  · rw [if_pos dot, pushPart_of_dropped (.inr dot)]
    exact written.eq
  rw [if_neg dot]
  by_cases up : part = ['.', '.']
  · subst up
    rw [if_pos rfl]
    cases stack with
    | nil =>
        obtain rfl : dest = ['/'] := by simpa [render] using written.eq
        exact .inl rfl
    | cons top below =>
        have isName := written.isName top (by simp)
        obtain ⟨front, split, shorter⟩ := @render_cons_eq top below
        have backed : 1 < dest.length ∧ backUp dest = front ++ ['/'] := by
          have := List.length_pos_iff.mpr isName.notEmpty
          rcases written.eq with rfl | ⟨-, rfl⟩
          · rw [split]
            exact ⟨by simp; omega, (backUp_concat isName).1⟩
          · rw [split]
            exact ⟨by simp; omega, (backUp_concat isName).2⟩
        rw [if_pos backed.1, backed.2, shorter, pushPart_up_cons, if_neg isName.notDotDot]
        by_cases none : below = []
        · rw [if_pos none, List.append_nil]
          exact .inl rfl
        · rw [if_neg none]
          exact .inr ⟨none, rfl⟩
  · rw [if_neg up, pushPart_of_name (by simp [nonempty, dot]) up]
    refine .inl ?_
    rw [List.reverse_cons]
    cases stack with
    | nil =>
        obtain rfl : dest = ['/'] := by simpa [render] using written.eq
        simp [render]
    | cons top below =>
        have isName := written.isName top (by simp)
        rw [render_concat (by simp)]
        rcases written.eq with rfl | ⟨-, rfl⟩
        · rw [if_neg (getLast?_render_ne isName), List.append_assoc, List.singleton_append]
        · rw [if_pos (by simp), List.append_assoc, List.singleton_append]

/-- All components. -/
theorem Written.foldl {segments stack : List (List Char)} {dest : List Char}
    (written : Written dest stack) (noSlash : ∀ part ∈ segments, '/' ∉ part) :
    Written ((segments.filter (· ≠ [])).foldl Filepath.pushComponent dest)
      (segments.foldl (pushPart true) stack) := by
  induction segments generalizing dest stack with
  | nil => exact written
  | cons part rest ih =>
      have later : ∀ part ∈ rest, '/' ∉ part := fun part member => noSlash part (by simp [member])
      rw [List.foldl_cons]
      by_cases none : part = []
      · rw [List.filter_cons_of_neg (by simpa using none), pushPart_of_dropped (.inl none)]
        exact ih written later
      · rw [List.filter_cons_of_pos (by simpa using none), List.foldl_cons]
        exact ih (written.pushComponent none (noSlash part (by simp))) later

/-- The slash at the end is cut off. -/
theorem Written.strip {dest : List Char} {stack : List (List Char)}
    (written : Written dest stack) :
    (if 1 < dest.length ∧ dest.getLast? = some '/' then some dest.dropLast else some dest) =
      some (render stack.reverse) := by
  rcases written.eq with rfl | ⟨-, rfl⟩
  · rw [if_neg]
    rintro ⟨long, last⟩
    cases stack with
    | nil => simp [render] at long
    | cons top below => exact getLast?_render_ne (written.isName top (by simp)) last
  · rw [if_pos ⟨by simp [render], by simp⟩, List.dropLast_concat]

/-- **The two layers agree on the absolute form of a path.**  The path may not be
empty: the C layer has no absolute form for it, and the Go layer has the working
directory. -/
theorem abspath_eq {cwd name : List Char} (isClean : IsCleanAbs cwd) (nonempty : name ≠ []) :
    abspath cwd name = some (abs cwd name) := by
  have segments := fun part => @noSlash_of_mem_splitOn name part
  rw [abspath, if_neg nonempty, abs]
  by_cases absolute : isAbs name = true
  · have start : Written ['/'] [] := ⟨by simp, .inl rfl⟩
    rw [if_pos absolute, if_pos absolute, clean, if_pos absolute, parts]
    exact (start.foldl segments).strip
  · obtain ⟨names, each, rfl⟩ := isClean
    have start : Written (render names) names.reverse := ⟨by simpa using each, .inl (by simp)⟩
    have rooted : isAbs (render names ++ '/' :: name) = true := by simp [isAbs, render]
    have same := parts_render each [] (.inl rfl)
    rw [List.append_nil] at same
    rw [if_neg absolute, if_neg absolute, clean, if_pos rooted, parts_join, same]
    exact (start.foldl segments).strip

example : abspath "/home".toList "..//./a/b/../c/".toList = some "/a/c".toList := by decide

end Filepath
