import OcCompiler.Run

/-! Where paths lead, and what writing changes. A path that leads to a file leads to one that is named by its last segment.
    Files that are written one after the other change the places that their paths lead to and no others, and no path leads
    to another place afterwards. -/

namespace OcCompiler

namespace FileSystem

variable {fs fs' : FileSystem} {here place : EntryPath} {path text x : String} {xs : List String}

/-! ### Segments -/

/-- Where a segment leads to from a directory, if its name is not too long. -/
def enter? (here : EntryPath) (segment : String) : Option EntryPath :=
  if Path.isIdle segment then some here
  else if segment = ".." then some here.dropLast
  else if nameLimit < segment.utf8ByteSize then none
  else some (here ++ [segment])

theorem follow_cons_eq_ok_iff : fs.follow here (x :: xs) = .ok place ↔
    fs.find? here = some .directory ∧ ∃ next, enter? here x = some next ∧ fs.follow next xs = .ok place := by
  rw [follow, enter?]
  cases fs.find? here with
  | none => simp
  | some entry =>
    cases entry with
    | file content => simp
    | directory =>
      dsimp only
      split
      · simp
      split
      · simp
      split <;> simp

theorem follow_concat (h : fs.follow here (xs ++ [x]) = .ok place) :
    ∃ dir, fs.find? dir = some .directory ∧ enter? dir x = some place := by
  induction xs generalizing here with
  | nil =>
    obtain ⟨hdir, next, hnext, h⟩ := follow_cons_eq_ok_iff.mp h
    cases h
    exact ⟨here, hdir, hnext⟩
  | cons y xs ih =>
    obtain ⟨-, next, -, h⟩ := follow_cons_eq_ok_iff.mp h
    exact ih h

theorem follow_of_resolve (h : fs.resolve path = .ok place) :
    fs.follow (if Path.isAbsolute path then [] else fs.current) (Path.segments path) = .ok place := by
  unfold resolve at h
  split at h
  · cases h
  split at h
  · cases h
  split at h
  · cases h
  · exact h

/-- Unless the last segment goes up, a path that leads to no directory leads to an entry with that name. -/
theorem getLast?_of_resolve (h : fs.resolve path = .ok place) (hfile : fs.find? place ≠ some .directory)
    (hlast : (Path.segments path).getLast? = some x) (hup : x ≠ "..") :
    Path.isIdle x = false ∧ place.getLast? = some x := by
  obtain ⟨xs, hxs⟩ := List.getLast?_eq_some_iff.mp hlast
  have hfollow := follow_of_resolve h
  rw [hxs] at hfollow
  obtain ⟨dir, hdir, henter⟩ := follow_concat hfollow
  rw [enter?, if_neg hup] at henter
  split at henter
  · cases henter
    exact absurd hdir hfile
  rename_i hidle
  split at henter
  · cases henter
  · cases henter
    exact ⟨by simpa using hidle, List.getLast?_concat⟩

/-! ### Writing -/

/-- The same directories are there, and paths start at the same one. -/
structure SameDirectories (fs fs' : FileSystem) : Prop where
  directory_iff : ∀ place, fs'.find? place = some .directory ↔ fs.find? place = some .directory
  current : fs'.current = fs.current

theorem SameDirectories.resolve_iff (h : SameDirectories fs fs') :
    fs'.resolve path = .ok place ↔ fs.resolve path = .ok place := by
  have hfollow (here : EntryPath) (xs : List String) : fs'.follow here xs = .ok place ↔ fs.follow here xs = .ok place := by
    induction xs generalizing here with
    | nil => rfl
    | cons x xs ih =>
      rw [follow_cons_eq_ok_iff, follow_cons_eq_ok_iff, h.directory_iff]
      exact and_congr_right fun _ => exists_congr fun next => and_congr_right fun _ => ih next
  unfold resolve
  rw [h.current]
  split
  · rfl
  split
  · rfl
  split
  · rfl
  · exact hfollow _ _

theorem write_eq_ok_iff : fs.write path text = .ok fs' ↔
    ∃ place, fs.resolve path = .ok place ∧ fs.find? place ≠ some .directory ∧ fs' = fs.put place (.file text.toUTF8) := by
  rw [write, bind_eq_ok_iff]
  refine exists_congr fun place => and_congr_right fun _ => ?_
  cases fs.find? place with
  | none => simp [pure, Except.pure, eq_comm]
  | some entry =>
    cases entry with
    | file content => simp [pure, Except.pure, eq_comm]
    | directory => simp [throw, throwThe, MonadExceptOf.throw]

theorem find?_put_file (hplace : fs.find? place ≠ some .directory) (content : ByteArray) (other : EntryPath) :
    (fs.put place (.file content)).find? other = if other = place then some (.file content) else fs.find? other := by
  refine fs.find?_put ?_ _ other
  rintro rfl
  exact hplace rfl

theorem sameDirectories_put (hplace : fs.find? place ≠ some .directory) (content : ByteArray) :
    SameDirectories fs (fs.put place (.file content)) := by
  refine ⟨fun other => ?_, rfl⟩
  rw [find?_put_file hplace]
  split
  · rename_i heq
    simp [heq, hplace]
  · rfl

/-- The second file system is the first one after files were written to it. A file that is written last to its place is
    there. -/
structure Overwritten (fs : FileSystem) (writes : List (String × String)) (fs' : FileSystem) : Prop where
  directories : SameDirectories fs fs'
  kept : ∀ place, (∀ w ∈ writes, fs.resolve w.1 ≠ .ok place) → fs'.find? place = fs.find? place
  written : ∀ before w after, writes = before ++ w :: after → ∃ place, fs.resolve w.1 = .ok place ∧
    fs.find? place ≠ some .directory ∧
      ((∀ v ∈ after, fs.resolve v.1 ≠ .ok place) → fs'.find? place = some (.file w.2.toUTF8))

theorem Overwritten.cons {w : String × String} {writes : List (String × String)} (hresolve : fs.resolve w.1 = .ok place)
    (hplace : fs.find? place ≠ some .directory) (h : Overwritten (fs.put place (.file w.2.toUTF8)) writes fs') :
    Overwritten fs (w :: writes) fs' := by
  have hsame := sameDirectories_put hplace w.2.toUTF8
  have hkept (other : EntryPath) (hother : ∀ v ∈ writes, fs.resolve v.1 ≠ .ok other) :
      fs'.find? other = if other = place then some (.file w.2.toUTF8) else fs.find? other := by
    rw [h.kept other fun v hv => mt hsame.resolve_iff.mp (hother v hv), find?_put_file hplace]
  refine ⟨⟨fun other => (h.directories.directory_iff other).trans (hsame.directory_iff other), h.directories.current⟩,
    fun other hother => ?_, fun before v after hwrites => ?_⟩
  · obtain ⟨hfirst, hlater⟩ := List.forall_mem_cons.mp hother
    rw [hkept other hlater, if_neg]
    rintro rfl
    exact hfirst hresolve
  · cases before with
    | nil =>
      obtain ⟨rfl, rfl⟩ := List.cons.inj hwrites
      exact ⟨place, hresolve, hplace, fun hlater => (hkept place hlater).trans (if_pos rfl)⟩
    | cons u before =>
      obtain ⟨-, hwrites⟩ := List.cons.inj hwrites
      obtain ⟨other, hother, hdirectory, hfile⟩ := h.written before v after hwrites
      refine ⟨other, hsame.resolve_iff.mp hother, mt (hsame.directory_iff other).mpr hdirectory, fun hlater => hfile ?_⟩
      exact fun v hv => mt hsame.resolve_iff.mp (hlater v hv)

theorem writeAll_cases (fs : FileSystem) (writes : List (String × String)) :
    (∃ fs', fs.writeAll writes = (.ok (writes.map Prod.fst), fs') ∧ Overwritten fs writes fs') ∨
      ∃ path e, (fs.writeAll writes).1 = .error (.file path e) := by
  induction writes generalizing fs with
  | nil =>
    refine .inl ⟨fs, rfl, ⟨fun _ => .rfl, rfl⟩, fun _ _ => rfl, fun before w after h => ?_⟩
    cases before <;> cases h
  | cons w writes ih =>
    rw [writeAll]
    split
    · exact .inr ⟨_, _, rfl⟩
    · rename_i fs₁ hwrite
      obtain ⟨place, hresolve, hplace, rfl⟩ := write_eq_ok_iff.mp hwrite
      rcases ih (fs.put place (.file w.2.toUTF8)) with ⟨fs', hrest, hover⟩ | ⟨path, e, hfailed⟩
      · rw [hrest]
        exact .inl ⟨fs', rfl, hover.cons hresolve hplace⟩
      · refine .inr ⟨path, e, ?_⟩
        dsimp only
        rw [hfailed]
        rfl

theorem read_eq_ok (hresolve : fs.resolve path = .ok place) (hfile : fs.find? place = some (.file text.toUTF8)) :
    fs.read path = .ok text := by
  have htext : String.fromUTF8? text.toUTF8 = some text := dif_pos text.isValidUTF8
  unfold read
  simp only [hresolve, hfile, textOf, htext, bind, Except.bind]

end FileSystem

end OcCompiler
