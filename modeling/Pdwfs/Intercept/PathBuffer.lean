import Pdwfs.Intercept.Mounts

/-!
# The buffer of `abspath`

`abspath` edits one buffer in place: it copies the components of the path to its
end, moves the end back at each `..`, and lets the buffer grow when a component does
not fit.

* `PathBuffer` — the buffer, and `PathBuffer.abspath` — the function on it, which
  has no answer if it reads or writes outside of the buffer.
* `lexical` — the path that the components of a name lead to, on their own.
* `PathBuffer.abspath_eq` — the function stays inside of its buffer and returns that
  path.
* `Mounts.containsPath_eq` — with the same mount paths, the C layer accepts the
  paths that the Go layer finds a mount for.

## Bounds

The function reads and writes through pointers.  The model keeps what is written and
the size of the buffer, and an access outside of it has no answer.  So that the
function has one is the statement that it stays inside, and it is proved together
with what it returns.  The invariant is short (`Fits`): what is written begins with
a slash, and there is place for the zero.  The slash is what stops the loop that
backs up over a component, and the place for the zero is what the slash in front of
the next one takes, which is written without a check.

## Two ways to a normal form

The C function goes through the components from the left and edits; the function of
Go does the same with an algorithm of its own.  Both are compared with a third,
which has nothing but components in it: a name leads from the root or from the
working directory, one component after the other.  This is what a path means without
links, and it is a list function.
-/

namespace Pdwfs

/-- `PATH_MAX`. -/
def pathMax : ℕ := 4096

/-- The buffer `rpath`: what is written up to `dest`, and its number of bytes. -/
structure PathBuffer where
  text : List Char
  limit : ℕ
deriving DecidableEq

namespace PathBuffer

/-- `dest = mempcpy(dest, s, …)`. -/
def copy (rpath : PathBuffer) (s : List Char) : Option PathBuffer :=
  if byteLength (rpath.text ++ s) ≤ rpath.limit then some { rpath with text := rpath.text ++ s }
  else none

/-- `*dest = '\0'`. -/
def terminate (rpath : PathBuffer) : Option PathBuffer :=
  if byteLength rpath.text < rpath.limit then some rpath else none

/-- `if (dest[-1] != '/') *dest++ = '/'`. -/
def separate (rpath : PathBuffer) : Option PathBuffer :=
  match rpath.text.getLast? with
  | none => none
  | some c => if c = '/' then some rpath else rpath.copy ['/']

/-- The buffer is reallocated if the component, or the zero behind it, does not fit. -/
def reserve (rpath : PathBuffer) (part : List Char) : PathBuffer :=
  if byteLength rpath.text + byteLength part ≥ rpath.limit then
    { rpath with
      limit := rpath.limit +
        if byteLength part + 1 > pathMax then byteLength part + 1 else pathMax }
  else rpath

/-- `while ((--dest)[-1] != '/')`, on what is written, the last character first. -/
def scan : List Char → Option (List Char)
  | _ :: c :: rest => if c = '/' then some (c :: rest) else scan (c :: rest)
  | _ => none

/-- The end of what is written moves back to the slash in front of the last
component. -/
def backUp (rpath : PathBuffer) : Option PathBuffer :=
  (scan rpath.text.reverse).map fun left => { rpath with text := left.reverse }

/-- The next component. -/
def component (rpath : PathBuffer) (part : List Char) : Option PathBuffer :=
  if part = ['.'] then some rpath
  else if part = ['.', '.'] then
    -- Ignored at the root.
    if 1 < byteLength rpath.text then rpath.backUp else some rpath
  else
    rpath.separate.bind fun rpath => ((rpath.reserve part).copy part).bind terminate

/-- The loop over the components, from `start` on. -/
def loop (start : List Char) (rpath : PathBuffer) : Option PathBuffer :=
  if start = [] then some rpath
  else if (start.dropWhile (· = '/')).takeWhile (· ≠ '/') = [] then some rpath
  else
    (rpath.component ((start.dropWhile (· = '/')).takeWhile (· ≠ '/'))).bind
      (loop ((start.dropWhile (· = '/')).dropWhile (· ≠ '/')))
termination_by start.length
decreasing_by
  rename_i nonempty
  have split := congrArg List.length (List.takeWhile_append_dropWhile
    (p := (· ≠ '/')) (l := start.dropWhile (· = '/')))
  have positive := List.length_pos_iff.mpr nonempty
  have shorter := (List.dropWhile_suffix (l := start) (· = '/')).length_le
  rw [List.length_append] at split
  omega

/-- The slash at the end is cut off. -/
def strip (rpath : PathBuffer) : PathBuffer :=
  if 1 < byteLength rpath.text ∧ rpath.text.getLast? = some '/' then
    { rpath with text := rpath.text.dropLast }
  else rpath

/-- The buffer before the loop, if there is one: `getcwd` returns no directory that does not
fit, with the zero behind it. -/
def start (cwd name : List Char) : Option PathBuffer :=
  if Filepath.isAbs name then some ⟨['/'], pathMax⟩
  else if byteLength cwd < pathMax then some ⟨cwd, pathMax⟩
  else none

/-- `abspath`.  The inner `none` is the null pointer. -/
def abspath (cwd name : List Char) : Option (Option (List Char)) :=
  if name = [] then some none
  else
    match start cwd name with
    | none => some none
    | some rpath =>
        (loop name rpath).bind fun rpath => rpath.strip.terminate.map fun rpath => some rpath.text

/-! ## The components of a name -/

theorem filter_splitOn_slash (rest : List Char) :
    (('/' :: rest).splitOn '/').filter (· ≠ []) = (rest.splitOn '/').filter (· ≠ []) := by
  rw [List.splitOn_cons_eq_if_modifyHead, if_pos (by simp)]
  exact List.filter_cons_of_neg (by simp)

/-- Slashes in front of a name do not count. -/
theorem filter_splitOn_dropWhile (name : List Char) :
    ((name.dropWhile (· = '/')).splitOn '/').filter (· ≠ []) =
      (name.splitOn '/').filter (· ≠ []) := by
  induction name with
  | nil => rfl
  | cons c rest ih =>
      by_cases slash : c = '/'
      · subst slash
        rw [List.dropWhile_cons_of_pos (by simp), ih, filter_splitOn_slash]
      · rw [List.dropWhile_cons_of_neg (by simpa using slash)]

/-- What is in front of the first slash is the first piece. -/
theorem splitOn_eq_cons (name : List Char) : ∃ later,
    name.splitOn '/' = name.takeWhile (· ≠ '/') :: later ∧
      later.filter (· ≠ []) =
        ((name.dropWhile (· ≠ '/')).splitOn '/').filter (· ≠ []) := by
  induction name with
  | nil => exact ⟨[], by decide, by decide⟩
  | cons c rest ih =>
      rw [List.splitOn_cons_eq_if_modifyHead]
      by_cases slash : c = '/'
      · subst slash
        refine ⟨rest.splitOn '/', ?_, ?_⟩
        · rw [if_pos (by simp), List.takeWhile_cons_of_neg (by simp)]
        · rw [List.dropWhile_cons_of_neg (by simp), filter_splitOn_slash]
      · obtain ⟨later, split, same⟩ := ih
        refine ⟨later, ?_, ?_⟩
        · rw [if_neg (by simpa using slash), split, List.modifyHead_cons,
            List.takeWhile_cons_of_pos (by simpa using slash)]
        · rw [List.dropWhile_cons_of_pos (by simpa using slash)]
          exact same

/-- The components that are left, from the pointer `start` on. -/
theorem components_eq (start : List Char) : (start.splitOn '/').filter (· ≠ []) =
    if (start.dropWhile (· = '/')).takeWhile (· ≠ '/') = [] then []
    else (start.dropWhile (· = '/')).takeWhile (· ≠ '/') ::
      (((start.dropWhile (· = '/')).dropWhile (· ≠ '/')).splitOn '/').filter (· ≠ []) := by
  rw [← filter_splitOn_dropWhile]
  have stops : ∀ c ∈ (start.dropWhile (· = '/')).head?, c ≠ '/' := by
    intro c first
    have := List.head?_dropWhile_not (· = '/') start
    rw [Option.mem_def.mp first] at this
    simpa using this
  generalize start.dropWhile (· = '/') = rest at stops ⊢
  obtain ⟨later, split, same⟩ := splitOn_eq_cons rest
  rw [split]
  split
  · rename_i ended
    cases rest with
    | nil =>
        rw [List.filter_cons_of_neg (by simp), same]
        decide
    | cons c chars =>
        have noSlash : c ≠ '/' := stops c rfl
        rw [List.takeWhile_cons_of_pos (by simpa using noSlash)] at ended
        simp at ended
  · rename_i nonempty
    rw [List.filter_cons_of_pos (by simpa using nonempty), same]

/-! ## The bounds of the buffer -/

/-- A character has one byte at least. -/
theorem length_le_byteLength (s : List Char) : s.length ≤ byteLength s := by
  induction s with
  | nil => exact le_rfl
  | cons c rest ih =>
      have positive := c.utf8Size_pos
      rw [byteLength, List.map_cons, List.sum_cons, ← byteLength, List.length_cons]
      omega

theorem byteLength_le_of_isPrefix {s t : List Char} (isPrefix : s <+: t) :
    byteLength s ≤ byteLength t := by
  obtain ⟨rest, rfl⟩ := isPrefix
  rw [Mounts.byteLength_append]
  exact Nat.le_add_right _ _

/-- What begins with a slash is longer than it in characters if it is in bytes. -/
theorem one_lt_byteLength_iff {text : List Char} (slash : ['/'] <+: text) :
    1 < byteLength text ↔ 1 < text.length := by
  obtain ⟨rest, rfl⟩ := slash
  have one : byteLength ['/'] = 1 := by decide
  have longer := length_le_byteLength rest
  rw [Mounts.byteLength_append, one, List.length_append]
  constructor
  · intro more
    cases rest with
    | nil => exact absurd more (by decide)
    | cons c rest => simp
  · intro more
    simp only [List.length_singleton] at more
    omega

/-- What is written begins with a slash, and leaves place for a zero. -/
structure Fits (rpath : PathBuffer) : Prop where
  slash : ['/'] <+: rpath.text
  place : byteLength rpath.text < rpath.limit

theorem Fits.terminate {rpath : PathBuffer} (fits : rpath.Fits) :
    rpath.terminate = some rpath := if_pos fits.place

/-- Backing up stops at a slash, at the latest at the first. -/
theorem scan_eq (text : List Char) (slash : '/' ∈ text.tail) :
    scan text = some (text.tail.dropWhile (· ≠ '/')) := by
  induction text with
  | nil => simp at slash
  | cons c rest ih =>
      cases rest with
      | nil => simp at slash
      | cons d rest =>
          unfold scan
          by_cases stop : d = '/'
          · subst stop
            rw [if_pos rfl, List.tail_cons, List.dropWhile_cons_of_neg (by simp)]
          · have later : '/' ∈ rest := (List.mem_cons.mp slash).resolve_left (Ne.symm stop)
            rw [if_neg stop, ih later, List.tail_cons, List.tail_cons,
              List.dropWhile_cons_of_pos (by simpa using stop)]

/-- Backing up stays inside, since there is a slash to stop at. -/
theorem Fits.backUp {rpath : PathBuffer} (fits : rpath.Fits) (more : 1 < rpath.text.length) :
    rpath.backUp = some { rpath with text := Filepath.backUp rpath.text } ∧
      Fits { rpath with text := Filepath.backUp rpath.text } := by
  obtain ⟨rest, start⟩ := fits.slash
  have nonempty : rest ≠ [] := by
    rintro rfl
    rw [← start] at more
    simp at more
  have shorter : rpath.text.dropLast = '/' :: rest.dropLast := by
    rw [← start, List.singleton_append, List.dropLast_cons_of_ne_nil nonempty]
  have isPrefix : Filepath.backUp rpath.text <+: rpath.text :=
    (List.rdropWhile_prefix _ _).trans (List.dropLast_prefix _)
  refine ⟨?_, ?_, (byteLength_le_of_isPrefix isPrefix).trans_lt fits.place⟩
  · have slash : '/' ∈ rpath.text.reverse.tail := by
      rw [List.tail_reverse, List.mem_reverse, shorter]
      exact List.mem_cons_self
    rw [PathBuffer.backUp, scan_eq _ slash, Option.map_some, List.tail_reverse]
    rfl
  · rw [Filepath.backUp, shorter, List.rdropWhile, List.reverse_cons]
    rw [List.dropWhile_append]
    split
    · simp
    · rw [List.reverse_append]
      exact ⟨_, rfl⟩

/-- A component and its slash are written inside of the buffer. -/
theorem Fits.write {rpath : PathBuffer} (fits : rpath.Fits) (part : List Char) :
    ∃ limit, (rpath.separate.bind fun rpath =>
        ((rpath.reserve part).copy part).bind PathBuffer.terminate) =
          some
            ⟨(if rpath.text.getLast? = some '/' then rpath.text else rpath.text ++ ['/']) ++ part,
              limit⟩ ∧
      Fits ⟨(if rpath.text.getLast? = some '/' then rpath.text else rpath.text ++ ['/']) ++ part,
        limit⟩ := by
  -- The slash itself is written without a check: there was place for the zero.
  have separated : ∃ text, rpath.separate = some { rpath with text := text } ∧
      text = (if rpath.text.getLast? = some '/' then rpath.text else rpath.text ++ ['/']) ∧
      byteLength text ≤ rpath.limit ∧ ['/'] <+: text := by
    have nonempty : rpath.text ≠ [] := fun none => by simpa [none] using fits.slash
    rw [separate, List.getLast?_eq_some_getLast nonempty]
    by_cases last : rpath.text.getLast nonempty = '/'
    · exact ⟨rpath.text, by simp [last], by simp [last], fits.place.le, fits.slash⟩
    · have one : byteLength ['/'] = 1 := by decide
      have place : byteLength (rpath.text ++ ['/']) ≤ rpath.limit := by
        rw [Mounts.byteLength_append, one]
        exact fits.place
      refine ⟨rpath.text ++ ['/'], ?_, by simp [last], place,
        fits.slash.trans (List.prefix_append _ _)⟩
      simp only [last, if_false]
      exact if_pos place
  obtain ⟨text, written, same, place, slash⟩ := separated
  rw [written, Option.bind_some, ← same]
  have reserved : (reserve { rpath with text := text } part).text = text ∧
      byteLength text + byteLength part < (reserve { rpath with text := text } part).limit := by
    unfold reserve
    split
    · refine ⟨rfl, ?_⟩
      simp only
      split <;> omega
    · rename_i enough
      exact ⟨rfl, not_le.mp enough⟩
  generalize reserve { rpath with text := text } part = grown at reserved ⊢
  obtain ⟨rfl, enough⟩ := reserved
  rw [← Mounts.byteLength_append] at enough
  have whole : Fits ⟨grown.text ++ part, grown.limit⟩ :=
    ⟨slash.trans (List.prefix_append _ _), enough⟩
  refine ⟨grown.limit, ?_, whole⟩
  rw [copy, if_pos enough.le, Option.bind_some]
  exact whole.terminate

/-- **One component**: nothing outside of the buffer is read or written. -/
theorem Fits.component {rpath : PathBuffer} (fits : rpath.Fits) (part : List Char) :
    ∃ limit, rpath.component part = some ⟨Filepath.pushComponent rpath.text part, limit⟩ ∧
      Fits ⟨Filepath.pushComponent rpath.text part, limit⟩ := by
  rw [PathBuffer.component, Filepath.pushComponent]
  split
  · exact ⟨rpath.limit, rfl, fits⟩
  · split
    · simp only [one_lt_byteLength_iff fits.slash]
      split
      · rename_i more
        exact ⟨rpath.limit, (fits.backUp more).1, (fits.backUp more).2⟩
      · exact ⟨rpath.limit, rfl, fits⟩
    · exact fits.write part

/-- The whole loop. -/
theorem Fits.loop {rpath : PathBuffer} (fits : rpath.Fits) (start : List Char) :
    ∃ limit, loop start rpath = some ⟨((start.splitOn '/').filter (· ≠ [])).foldl
        Filepath.pushComponent rpath.text, limit⟩ ∧
      Fits ⟨((start.splitOn '/').filter (· ≠ [])).foldl Filepath.pushComponent rpath.text,
        limit⟩ := by
  induction start, rpath using loop.induct with
  | case1 rpath =>
      rw [PathBuffer.loop, if_pos rfl]
      exact ⟨rpath.limit, rfl, fits⟩
  | case2 start rpath some ended =>
      rw [PathBuffer.loop, if_neg some, if_pos ended, components_eq, if_pos ended]
      exact ⟨rpath.limit, rfl, fits⟩
  | case3 start rpath some part ih =>
      rw [PathBuffer.loop, if_neg some, if_neg part, components_eq, if_neg part, List.foldl_cons]
      obtain ⟨limit, pushed, fits⟩ := fits.component
        ((start.dropWhile (· = '/')).takeWhile (· ≠ '/'))
      rw [pushed, Option.bind_some]
      exact ih _ fits

end PathBuffer

/-! ## The lexical normal form -/

/-- The next component of a path, behind the components in front of it.  At the
root, `..` leads nowhere. -/
def resolve (front : List GoString) (part : GoString) : List GoString :=
  if part = [] ∨ part = ['.'] then front
  else if part = ['.', '.'] then front.dropLast
  else front ++ [part]

/-- The components of a path. -/
def components (path : GoString) : List GoString := (path.splitOn '/').filter (· ≠ [])

/-- The components that a name leads to. -/
def lexicalComponents (cwd name : GoString) : List GoString :=
  (components name).foldl resolve (if Filepath.isAbs name then [] else components cwd)

/-- The lexical normal form of a name. -/
def lexical (cwd name : GoString) : GoString :=
  '/' :: ['/'].intercalate (lexicalComponents cwd name)

/-- The components of a path that has been put together are those it has been put
together from. -/
theorem components_render {names : List GoString} (each : ∀ name ∈ names, Filepath.IsName name) :
    components (Filepath.render names) = names := by
  rw [components, Filepath.render, PathBuffer.filter_splitOn_slash]
  by_cases none : names = []
  · subst none
    rfl
  · rw [List.splitOn_intercalate '/' (fun name member => (each name member).noSlash) none]
    exact List.filter_eq_self.mpr fun name member => by simpa using (each name member).notEmpty

/-- The stack of `clean` is the components in front, the last one first. -/
theorem foldl_pushPart_eq (segments stack : List GoString)
    (noSlash : ∀ part ∈ segments, '/' ∉ part) (names : ∀ name ∈ stack, Filepath.IsName name) :
    (segments.foldl (Filepath.pushPart true) stack).reverse =
      (segments.filter (· ≠ [])).foldl resolve stack.reverse := by
  induction segments generalizing stack with
  | nil => rfl
  | cons part rest ih =>
      have later : ∀ part ∈ rest, '/' ∉ part := fun part member => noSlash part (by simp [member])
      have pushed := ih _ later (Filepath.pushPart_isName (noSlash part (by simp)) names)
      rw [List.foldl_cons, pushed]
      by_cases empty : part = []
      · rw [Filepath.pushPart_of_dropped (.inl empty),
          List.filter_cons_of_neg (by simpa using empty)]
      · rw [List.filter_cons_of_pos (by simpa using empty), List.foldl_cons]
        congr 1
        by_cases dot : part = ['.']
        · rw [Filepath.pushPart_of_dropped (.inr dot), resolve, if_pos (.inr dot)]
        · have kept : ¬(part = [] ∨ part = ['.']) := not_or.mpr ⟨empty, dot⟩
          rw [resolve, if_neg kept]
          by_cases up : part = ['.', '.']
          · subst up
            rw [if_pos rfl]
            cases stack with
            | nil => rfl
            | cons top below =>
                rw [Filepath.pushPart_up_cons, if_neg (names top (by simp)).notDotDot,
                  List.reverse_cons, List.dropLast_concat]
          · rw [if_neg up, Filepath.pushPart_of_name kept up, List.reverse_cons]

/-- **The absolute form of a path is its lexical normal form.** -/
theorem abs_eq_lexical {cwd name : GoString} (isClean : Filepath.IsCleanAbs cwd) :
    Filepath.abs cwd name = lexical cwd name := by
  have noSlash := fun part => @Filepath.noSlash_of_mem_splitOn name part
  rw [Filepath.abs, lexical, lexicalComponents]
  by_cases absolute : Filepath.isAbs name = true
  · have folded := foldl_pushPart_eq (name.splitOn '/') [] noSlash (by simp)
    rw [if_pos absolute, if_pos absolute, Filepath.clean, if_pos absolute, Filepath.parts, folded]
    rfl
  · obtain ⟨names, each, rfl⟩ := isClean
    have rooted : Filepath.isAbs (Filepath.render names ++ '/' :: name) = true := by
      simp [Filepath.isAbs, Filepath.render]
    have same := Filepath.parts_render each [] (.inl rfl)
    rw [List.append_nil] at same
    have folded := foldl_pushPart_eq (name.splitOn '/') names.reverse noSlash
      (by simpa using each)
    rw [if_neg absolute, if_neg absolute, Filepath.clean, if_pos rooted, Filepath.parts_join, same,
      folded, List.reverse_reverse, components_render each]
    rfl

/-- **The function on the buffer**: it stays inside of the buffer, and returns what
it writes. -/
theorem PathBuffer.abspath_eq {cwd name : GoString} (isClean : Filepath.IsCleanAbs cwd)
    (short : byteLength cwd < pathMax) :
    PathBuffer.abspath cwd name = some (Filepath.abspath cwd name) := by
  rw [PathBuffer.abspath, Filepath.abspath]
  split
  · rfl
  have started : ∃ rpath, start cwd name = some rpath ∧ rpath.Fits ∧
      rpath.text = if Filepath.isAbs name then ['/'] else cwd := by
    unfold start
    split
    · exact ⟨_, rfl, ⟨List.prefix_refl _, by decide⟩, rfl⟩
    · exact ⟨_, rfl, ⟨Filepath.isPrefix_root isClean, short⟩, rfl⟩
  obtain ⟨rpath, started, fits, text⟩ := started
  obtain ⟨limit, looped, fits⟩ := fits.loop name
  rw [started, ← text]
  simp only [looped, Option.bind_some]
  generalize ((name.splitOn '/').filter (· ≠ [])).foldl Filepath.pushComponent rpath.text = written
    at fits ⊢
  unfold strip
  simp only [one_lt_byteLength_iff fits.slash]
  split
  · have place := (byteLength_le_of_isPrefix (List.dropLast_prefix written)).trans_lt fits.place
    rw [terminate, if_pos place, Option.map_some]
  · rw [fits.terminate, Option.map_some]

/-! ## The two layers -/

/-- With the same mount paths, the C layer accepts the paths that the Go layer finds a mount
for. -/
theorem Mounts.containsPath_eq {mounts : Mounts} {order register : List GoString}
    {cwd : Filepath.WorkingDir} (isClean : Filepath.IsCleanAbs cwd.1) (name : GoString)
    (ordered : mounts.Order order) (registered : ∀ m, m ∈ register ↔ m ∈ mounts.paths) :
    containsPath register cwd name = (mounts.getMount order cwd name).isSome := by
  rw [containsPath, getMount]
  by_cases empty : name = []
  · rw [if_pos empty, Filepath.abspath, if_pos empty]
    rfl
  · rw [if_neg empty, Filepath.abspath_eq isClean empty, Option.isSome_map, Bool.eq_iff_iff,
      List.find?_isSome]
    simp only [List.any_eq_true, decide_eq_true_eq, registered, ordered.mem_iff]

/-- **`abspath` returns the lexical normal form**, without an access outside of its
buffer, and the two layers accept the same paths; they reject the empty path.  The
normal form is defined on components (`lexical`), without reference to any of the
two algorithms.  The condition on the working directory is what `getcwd` guarantees.
-/
theorem abspath_lexical {cwd : Filepath.WorkingDir} (isClean : Filepath.IsCleanAbs cwd.1)
    (short : byteLength cwd.1 < pathMax) :
    (∀ name, name ≠ [] → PathBuffer.abspath cwd name = some (some (lexical cwd name))) ∧
      ∀ (mounts : Mounts) (order register : List GoString) (name : GoString),
        mounts.Order order → (∀ m, m ∈ register ↔ m ∈ mounts.paths) →
          PathBuffer.abspath cwd name = some (Filepath.abspath cwd name) ∧
            containsPath register cwd name = (mounts.getMount order cwd name).isSome ∧
            containsPath register cwd [] = false ∧ mounts.getMount order cwd [] = none := by
  refine ⟨fun name nonempty => ?_, fun mounts order register name ordered registered => ?_⟩
  · rw [PathBuffer.abspath_eq isClean short, Filepath.abspath_eq isClean nonempty,
      abs_eq_lexical isClean]
  · exact ⟨PathBuffer.abspath_eq isClean short,
      Mounts.containsPath_eq isClean name ordered registered, rfl, rfl⟩

/-- A relative path that backs up past the root. -/
theorem abspath_lexical_up :
    PathBuffer.abspath ['/', 'a'] "../..//./a/b/../c/".toList = some (some "/a/c".toList) ∧
      containsPath [['/', 'a']] ⟨['/', 'a'], rfl⟩ ['c'] =
        (Mounts.single.getMount [['/', 'a']] ⟨['/', 'a'], rfl⟩ ['c']).isSome := by
  obtain ⟨forms, agree⟩ := @abspath_lexical ⟨['/', 'a'], rfl⟩ Mounts.isCleanAbs_a (by decide)
  constructor
  · rw [forms _ (by decide)]
    decide
  · refine (agree Mounts.single [['/', 'a']] [['/', 'a']] ['c'] ⟨by simp, fun path => ?_⟩
      fun path => ?_).2.1
    · rw [List.mem_singleton]
      exact Finset.mem_singleton.symm
    · rw [List.mem_singleton]
      exact Finset.mem_singleton.symm

end Pdwfs
