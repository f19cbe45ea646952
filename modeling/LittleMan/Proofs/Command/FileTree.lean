import Mathlib.Tactic.Common
import LittleMan.Command.FileTree

/-!
# Files that were written are there

A file that was made at a path is found at that path, with the content it was given. The directories
on the way to it stay what they were, since no directory has the name of a file.
-/

namespace LittleMan.Command.FileTree

variable {t t' : FileTree} {names : Names} {content : ByteArray}

/-- The names of the file that is there, or can be made there. -/
def Place.fileNames? : Place → Option Names
  | .directory _ => none
  | .file names _ => some names
  | .vacant names => names

/-- Whether a file can have these names: there is one already, or there is nothing. -/
def IsFree (t : FileTree) (names : Names) : Prop :=
  t.files.lookup names ≠ none ∨ t.hasDirectory names = false

def isInside (t : FileTree) (path : String) : Bool :=
  match t.walk (path.toList.splitOn '/') with
  | .ok (.vacant none) => false
  | _ => true

/-! ## One file more -/

theorem lookup_put_self : (t.put names content).files.lookup names = some content := by
  simp [put]

theorem lookup_put_of_ne {ns : Names} (h : ns ≠ names) :
    (t.put names content).files.lookup ns = t.files.lookup ns := by
  have hfilter : (t.files.filter (·.1 != names)).lookup ns = t.files.lookup ns := by
    induction t.files with
    | nil => rfl
    | cons f files ih =>
      obtain ⟨file, bytes⟩ := f
      by_cases hf : file = names
      · subst hf
        have hne : (ns == file) = false := by simp [h]
        simp [ih, List.lookup_cons, hne]
      · simp [hf, List.lookup_cons, ih]
  have hne : (ns == names) = false := by simp [h]
  simp only [put, List.lookup_cons, hne, hfilter]

theorem hasDirectory_put {ns : Names} (h : t.hasDirectory ns) :
    (t.put names content).hasDirectory ns := by
  unfold hasDirectory at h ⊢
  rw [Bool.or_eq_true] at h ⊢
  apply h.imp_right
  intro hany
  obtain ⟨⟨file, bytes⟩, hmem, hfile⟩ := List.any_eq_true.mp hany
  apply List.any_eq_true.mpr
  by_cases hf : file = names
  · exact ⟨(names, content), by simp [put], hf ▸ hfile⟩
  · exact ⟨(file, bytes), by simp [put, hmem, hf], hfile⟩

/-! ## The way to a file -/

theorem child_directory_put {d d' : Option Names} {name : String} (hfree : t.IsFree names)
    (h : t.child d name = .directory d') : (t.put names content).child d name = .directory d' := by
  cases d with
  | none => simp [child] at h
  | some ns =>
    simp only [child] at h ⊢
    cases hlookup : t.files.lookup (ns ++ [name]) with
    | some bytes => simp [hlookup] at h
    | none =>
      rw [hlookup] at h
      dsimp only at h
      split at h
      · rename_i hdir
        have hne : ns ++ [name] ≠ names := by
          rintro rfl
          rcases hfree with hfree | hfree
          · exact hfree hlookup
          · rw [hfree] at hdir
            cases hdir
        rw [lookup_put_of_ne hne, hlookup]
        simpa [hasDirectory_put hdir] using h
      · cases h

theorem child_file_put (content : ByteArray) {d : Option Names} {name : String} {q : Place}
    (h : t.child d name = q) (hq : q.fileNames? = some names) :
    t.IsFree names ∧ (t.put names content).child d name = .file names content := by
  subst h
  cases d with
  | none => cases hq
  | some ns =>
    simp only [child] at hq ⊢
    cases hlookup : t.files.lookup (ns ++ [name]) with
    | some bytes =>
      rw [hlookup] at hq
      obtain rfl : ns ++ [name] = names := Option.some.inj hq
      rw [lookup_put_self]
      exact ⟨Or.inl (by simp [hlookup]), rfl⟩
    | none =>
      rw [hlookup] at hq
      dsimp only at hq
      split at hq
      · cases hq
      · rename_i hdir
        obtain rfl : ns ++ [name] = names := Option.some.inj hq
        rw [lookup_put_self]
        exact ⟨Or.inr (by simpa using hdir), rfl⟩

theorem enter_cases (d : Option Names) (piece : List Char) :
    (∃ d', ∀ t : FileTree, t.enter (.directory d) piece = .ok (.directory d')) ∨
      ∃ name, ∀ t : FileTree, t.enter (.directory d) piece =
        if longestName < name.utf8ByteSize then .error .nameTooLong else .ok (t.child d name) := by
  by_cases hnil : piece = []
  · exact .inl ⟨d, fun t => by rw [hnil, enter]⟩
  by_cases hdot : piece = ['.']
  · exact .inl ⟨d, fun t => by rw [hdot, enter]⟩
  by_cases hup : piece = ['.', '.']
  · exact .inl ⟨parent d, fun t => by rw [hup, enter]⟩
  refine .inr ⟨String.ofList piece, fun t => ?_⟩
  rw [enter]
  · exact hnil
  · exact hdot
  · exact hup

theorem enter_directory_put {d d' : Option Names} {piece : List Char} (hfree : t.IsFree names)
    (h : t.enter (.directory d) piece = .ok (.directory d')) :
    (t.put names content).enter (.directory d) piece = .ok (.directory d') := by
  obtain ⟨d'', hstay⟩ | ⟨name, hname⟩ := enter_cases d piece
  · rw [hstay] at h ⊢
    exact h
  · rw [hname] at h ⊢
    split at h
    · cases h
    · rename_i hshort
      rw [if_neg hshort, child_directory_put hfree (Except.ok.inj h)]

theorem enter_file_put (content : ByteArray) {d : Option Names} {piece : List Char} {q : Place}
    (h : t.enter (.directory d) piece = .ok q) (hq : q.fileNames? = some names) :
    t.IsFree names ∧
      (t.put names content).enter (.directory d) piece = .ok (.file names content) := by
  obtain ⟨d', hstay⟩ | ⟨name, hname⟩ := enter_cases d piece
  · rw [hstay] at h
    cases h
    cases hq
  · rw [hname] at h ⊢
    split at h
    · cases h
    · rename_i hshort
      obtain ⟨hfree, hchild⟩ := child_file_put content (Except.ok.inj h) hq
      rw [if_neg hshort, hchild]
      exact ⟨hfree, rfl⟩

theorem foldlM_enter_of_ne_directory {p q : Place} {pieces : List (List Char)}
    (hp : ∀ d, p ≠ .directory d) (h : pieces.foldlM t.enter p = .ok q) : pieces = [] ∧ q = p := by
  cases pieces with
  | nil =>
    cases h
    exact ⟨rfl, rfl⟩
  | cons piece pieces =>
    cases p with
    | directory d => exact absurd rfl (hp d)
    | file ns bytes => cases h
    | vacant ns => cases h

theorem foldlM_enter_put {d : Option Names} {q : Place} {pieces : List (List Char)}
    (h : pieces.foldlM t.enter (.directory d) = .ok q) (hq : q.fileNames? = some names) :
    t.IsFree names ∧
      pieces.foldlM (t.put names content).enter (.directory d) = .ok (.file names content) := by
  induction pieces generalizing d with
  | nil =>
    cases h
    cases hq
  | cons piece pieces ih =>
    rw [List.foldlM_cons] at h ⊢
    cases henter : t.enter (.directory d) piece with
    | error e =>
      rw [henter] at h
      cases h
    | ok p =>
      rw [henter] at h
      change pieces.foldlM t.enter p = .ok q at h
      by_cases hp : ∃ d', p = .directory d'
      · obtain ⟨d', rfl⟩ := hp
        obtain ⟨hfree, hrest⟩ := ih h
        rw [enter_directory_put hfree henter]
        exact ⟨hfree, hrest⟩
      · -- The last piece: nothing leads on from here.
        obtain ⟨rfl, rfl⟩ := foldlM_enter_of_ne_directory (fun d' hd => hp ⟨d', hd⟩) h
        obtain ⟨hfree, hput⟩ := enter_file_put content henter hq
        rw [hput]
        exact ⟨hfree, rfl⟩

/-! ## Reading what was written -/

theorem walk_dot {pieces : List (List Char)} {q : Place} (h : t.walk (pieces ++ [['.']]) = .ok q) :
    ∃ d, q = .directory d := by
  unfold walk at h
  rw [List.foldlM_append] at h
  cases hfront : pieces.foldlM t.enter
      (.directory (if (pieces ++ [['.']]).head? = some [] then none else some [])) with
  | error e =>
    rw [hfront] at h
    cases h
  | ok p =>
    rw [hfront] at h
    cases p with
    | directory d =>
      cases h
      exact ⟨d, rfl⟩
    | file ns bytes => cases h
    | vacant ns => cases h

theorem read_of_walk {path : String} {bytes : ByteArray} (hne : path ≠ "")
    (hlen : ¬ longestPath < path.utf8ByteSize)
    (h : t.walk (path.toList.splitOn '/') = .ok (.file names bytes)) : t.read path = .ok bytes := by
  unfold read
  rw [if_neg hne, if_neg hlen, h]

/-- A file is made where its path leads, and nothing else changes. -/
theorem write_ok {path : String} (hin : t.isInside path) (h : t.write path content = .ok t') :
    path ≠ "" ∧ ¬ longestPath < path.utf8ByteSize ∧
      ∃ q names, t.walk (path.toList.splitOn '/') = .ok q ∧ q.fileNames? = some names ∧
        t' = t.put names content := by
  unfold write at h
  split at h
  · cases h
  · rename_i hne
    split at h
    · cases h
    · rename_i hlen
      refine ⟨hne, hlen, ?_⟩
      -- A path that ends in a slash names a directory, which is not written.
      have htarget : ∀ q, t.walk (target (path.toList.splitOn '/')) = .ok q →
          (∀ d, q ≠ .directory d) → t.walk (path.toList.splitOn '/') = .ok q := by
        intro q hwalk hq
        unfold target at hwalk
        split at hwalk
        · obtain ⟨d, hd⟩ := walk_dot hwalk
          exact absurd hd (hq d)
        · exact hwalk
      split at h
      · cases h
      · cases h
      · rename_i ns hwalk
        cases h
        exact ⟨_, ns, htarget _ hwalk nofun, rfl, rfl⟩
      · rename_i hwalk
        simp [isInside, htarget _ hwalk nofun] at hin
      · rename_i ns bytes hwalk
        cases h
        exact ⟨_, ns, htarget _ hwalk nofun, rfl, rfl⟩

theorem read_write {path : String} (hin : t.isInside path) (h : t.write path content = .ok t') :
    t'.read path = .ok content := by
  obtain ⟨hne, hlen, q, names, hwalk, hq, rfl⟩ := write_ok hin h
  exact read_of_walk hne hlen (foldlM_enter_put hwalk hq).2

end LittleMan.Command.FileTree
