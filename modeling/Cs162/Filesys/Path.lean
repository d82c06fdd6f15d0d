import Mathlib.Data.List.Basic

namespace Cs162.Filesys

abbrev Name := List Char

abbrev Inumber := ℕ

def rootInumber : Inumber := 1

structure DirEntry where
  inodeSector : Inumber
  name : Name
  inUse : Bool
deriving DecidableEq

structure Dirs where
  isDir : Inumber → Bool
  entries : Inumber → List DirEntry

def strtokR (delimiters s : List Char) : Option Name × List Char :=
  match s.dropWhile delimiters.contains with
  | [] => (none, [])
  | c :: s =>
    (some ((c :: s).takeWhile fun c => !delimiters.contains c),
      ((c :: s).dropWhile fun c => !delimiters.contains c).tail)

def delimiters : List Char := ['/', '\\']

def dot : Name := ['.']

structure PathState where
  workingDir : Inumber
  inode : Option Inumber
  fileName : Name
  error : Bool

namespace Dirs

def lookup (fs : Dirs) (dir : Inumber) (name : Name) : Option DirEntry :=
  (fs.entries dir).find? fun e => e.inUse && e.name == name

def dirLookup (fs : Dirs) (dir : Inumber) (name : Name) : Option Inumber :=
  (fs.lookup dir name).map (·.inodeSector)

def pathLoop (fs : Dirs) : ℕ → List Char → PathState → PathState
  | 0, _, s => s
  | n + 1, path, s =>
    match strtokR delimiters path with
    | (none, _) => s
    | (some token, savePtr) =>
      if savePtr = [] then fs.pathLoop n savePtr { s with fileName := token }
      else
        match fs.dirLookup s.workingDir token with
        | none => { s with inode := none, error := true }
        | some inode =>
          if fs.isDir inode then fs.pathLoop n savePtr { s with workingDir := inode, inode := some inode }
          else { s with inode := some inode, error := true }

def workingDir (curDir : Inumber) (path : List Char) : Inumber :=
  if path.head? = some '/' then rootInumber else curDir

def pathResult (fs : Dirs) (s : PathState) : Option Inumber × Name :=
  (if s.error then s.inode else fs.dirLookup s.workingDir dot, s.fileName)

def inodeOpenPath (fs : Dirs) (curDir : Inumber) (path : List Char) : Option Inumber × Name :=
  if path = [] then (none, [])
  else if path = ['/'] then (some rootInumber, [])
  else fs.pathResult (fs.pathLoop (path.length + 1) path ⟨workingDir curDir path, none, [], false⟩)

end Dirs

inductive Walk
  | reached (dir : Inumber)
  | missing
  | blocked (inode : Inumber)
deriving DecidableEq

def Dirs.follow (fs : Dirs) : Inumber → List Name → Walk
  | dir, [] => .reached dir
  | dir, name :: names =>
    match fs.dirLookup dir name with
    | none => .missing
    | some inode => if fs.isDir inode then fs.follow inode names else .blocked inode

def splitLoop : ℕ → List Char → List Name × Name
  | 0, _ => ([], [])
  | n + 1, path =>
    match strtokR delimiters path with
    | (none, _) => ([], [])
    | (some token, savePtr) =>
      if savePtr = [] then ([], token)
      else (token :: (splitLoop n savePtr).1, (splitLoop n savePtr).2)

def splitPath (path : List Char) : List Name × Name := splitLoop (path.length + 1) path

section Loop
variable {fs : Dirs} {path : List Char} {curDir : Inumber}

theorem pathLoop_nil (n : ℕ) (s : PathState) : fs.pathLoop n [] s = s := by
  cases n <;> rfl

theorem pathResult_pathLoop (n : ℕ) (path : List Char) (dir : Inumber) (inode : Option Inumber) :
    fs.pathResult (fs.pathLoop n path ⟨dir, inode, [], false⟩) =
      match fs.follow dir (splitLoop n path).1 with
      | .reached dir' => (fs.dirLookup dir' dot, (splitLoop n path).2)
      | .missing => (none, [])
      | .blocked inode' => (some inode', []) := by
  induction n generalizing path dir inode with
  | zero => rfl
  | succ n ih =>
    rcases htok : strtokR delimiters path with ⟨_ | token, savePtr⟩
    · simp [Dirs.pathLoop, splitLoop, htok, Dirs.follow, Dirs.pathResult]
    · by_cases hend : savePtr = []
      · simp [Dirs.pathLoop, splitLoop, htok, hend, pathLoop_nil, Dirs.follow, Dirs.pathResult]
      · rcases hlook : fs.dirLookup dir token with _ | next
        · simp [Dirs.pathLoop, splitLoop, htok, hend, hlook, Dirs.follow, Dirs.pathResult]
        · by_cases hdir : fs.isDir next
          · simp [Dirs.pathLoop, splitLoop, htok, hend, hlook, hdir, Dirs.follow, ih]
          · simp [Dirs.pathLoop, splitLoop, htok, hend, hlook, hdir, Dirs.follow, Dirs.pathResult]

theorem inodeOpenPath_eq (hne : path ≠ []) (hroot : path ≠ ['/']) :
    fs.inodeOpenPath curDir path =
      match fs.follow (Dirs.workingDir curDir path) (splitPath path).1 with
      | .reached dir => (fs.dirLookup dir dot, (splitPath path).2)
      | .missing => (none, [])
      | .blocked inode => (some inode, []) := by
  rw [Dirs.inodeOpenPath, if_neg hne, if_neg hroot, pathResult_pathLoop, splitPath]

theorem strtokR_length {delims rest : List Char} {token : Name} (h : strtokR delims path = (some token, rest)) :
    rest.length < path.length := by
  rw [strtokR] at h
  split at h
  · cases h
  next c s hdrop =>
    cases h
    have hskip := (List.dropWhile_suffix delims.contains (l := path)).length_le
    have hword := (List.dropWhile_suffix (fun c => !delims.contains c) (l := c :: s)).length_le
    rw [hdrop] at hskip
    rw [List.length_tail]
    simp only [List.length_cons] at hskip hword
    omega

theorem pathLoop_rounds {n m : ℕ} (hn : path.length < n) (hm : path.length < m) (s : PathState) :
    fs.pathLoop n path s = fs.pathLoop m path s := by
  induction n generalizing path m s with
  | zero => omega
  | succ n ih =>
    obtain ⟨m, rfl⟩ := Nat.exists_eq_succ_of_ne_zero (show m ≠ 0 by omega)
    rcases htok : strtokR delimiters path with ⟨_ | token, savePtr⟩
    · simp only [Dirs.pathLoop, htok]
    · have hlen := strtokR_length htok
      have hrec : ∀ s, fs.pathLoop n savePtr s = fs.pathLoop m savePtr s := ih (by omega) (by omega)
      simp only [Dirs.pathLoop, htok, hrec]

namespace Dirs

end Dirs

def oneFile : Dirs where
  isDir inode := inode == rootInumber
  entries inode :=
    if inode = rootInumber then [⟨1, ['.'], true⟩, ⟨1, ['.', '.'], true⟩, ⟨2, ['f'], true⟩] else []

end Loop

section Tokens
variable {delims s : List Char}

theorem not_of_dropWhile_eq_cons {p : Char → Bool} {c : Char} {t : List Char} (h : s.dropWhile p = c :: t) :
    p c = false := by
  have hne : s.dropWhile p ≠ [] := h ▸ List.cons_ne_nil _ _
  simpa only [h, List.head_cons] using List.head_dropWhile_not p hne

def strtokAll (delims : List Char) : ℕ → List Char → Option (List Name)
  | 0, _ => none
  | n + 1, s =>
    match strtokR delims s with
    | (none, _) => some []
    | (some token, savePtr) => (strtokAll delims n savePtr).map (token :: ·)

def words (delims s : List Char) : List Name := (s.splitOnP delims.contains).filter (· ≠ [])

structure Splits (delims s : List Char) (token : Name) (savePtr skipped after : List Char) : Prop where
  parts : s = skipped ++ (token ++ after)
  skipped : ∀ c ∈ skipped, delims.contains c = true
  nonempty : token ≠ []
  token : ∀ c ∈ token, delims.contains c = false
  after : after = [] ∧ savePtr = [] ∨ ∃ d, delims.contains d = true ∧ after = d :: savePtr

theorem strtokR_eq_none {save : List Char} (h : strtokR delims s = (none, save)) :
    ∀ c ∈ s, delims.contains c = true := by
  rw [strtokR] at h
  split at h
  next hdrop =>
    intro c hc
    rw [← List.takeWhile_append_dropWhile (p := delims.contains) (l := s), hdrop, List.append_nil] at hc
    exact List.all_eq_true.mp List.all_takeWhile c hc
  · cases h

theorem strtokR_splits {token : Name} {save : List Char} (h : strtokR delims s = (some token, save)) :
    ∃ skipped after, Splits delims s token save skipped after := by
  rw [strtokR] at h
  split at h
  · cases h
  next c t hdrop =>
    cases h
    have hc := not_of_dropWhile_eq_cons hdrop
    refine ⟨s.takeWhile delims.contains, (c :: t).dropWhile fun c => !delims.contains c, ?_, ?_, ?_, ?_, ?_⟩
    · rw [List.takeWhile_append_dropWhile, ← hdrop, List.takeWhile_append_dropWhile]
    · exact fun c hc => List.all_eq_true.mp List.all_takeWhile c hc
    · rw [List.takeWhile_cons_of_pos (by simp only [hc, Bool.not_false])]
      exact List.cons_ne_nil _ _
    · exact fun c hc => by simpa using List.all_eq_true.mp List.all_takeWhile c hc
    · rcases hrem : (c :: t).dropWhile fun c => !delims.contains c with _ | ⟨d, rest⟩
      · exact .inl ⟨rfl, rfl⟩
      · exact .inr ⟨d, by simpa using not_of_dropWhile_eq_cons hrem, rfl⟩

theorem words_append_skipped {skipped : List Char} (h : ∀ c ∈ skipped, delims.contains c = true) :
    words delims (skipped ++ s) = words delims s := by
  induction skipped with
  | nil => rfl
  | cons c skipped ih =>
    rw [← ih fun c hc => h c (List.mem_cons_of_mem _ hc), words, List.cons_append,
      List.splitOnP_cons_eq_if_modifyHead, if_pos (h c List.mem_cons_self)]
    rfl

theorem words_of_splits {token : Name} {save skipped after : List Char}
    (h : Splits delims s token save skipped after) : words delims s = token :: words delims save := by
  have htoken : token.splitOnP delims.contains = [token] := List.splitOnP_eq_singleton h.token
  have hne := h.nonempty
  rw [h.parts, words_append_skipped h.skipped]
  rcases h.after with ⟨rfl, rfl⟩ | ⟨d, hd, rfl⟩
  · simp [words, htoken, hne]
  · simp [words, List.splitOnP_append_cons token save hd, htoken, hne]

theorem strtokAll_eq {n : ℕ} (hn : s.length < n) : strtokAll delims n s = some (words delims s) := by
  induction n generalizing s with
  | zero => omega
  | succ n ih =>
    rw [strtokAll]
    rcases htok : strtokR delims s with ⟨_ | token, save⟩
    · have := words_append_skipped (s := []) (strtokR_eq_none htok)
      rw [List.append_nil] at this
      rw [this]
      rfl
    · obtain ⟨skipped, after, hsplit⟩ := strtokR_splits htok
      have hlen := strtokR_length htok
      simp only
      rw [ih (by omega), words_of_splits hsplit]
      rfl

theorem strtok_exact (delims s : List Char) :
    (∃ n, strtokAll delims n s = some (words delims s)) ∧
      ∀ t token save, strtokR delims t = (some token, save) → ∃ skipped after,
        Splits delims t token save skipped after ∧
          (save = [] ↔ after = [] ∨ ∃ d, delims.contains d = true ∧ after = [d]) := by
  refine ⟨⟨_, strtokAll_eq (Nat.lt_succ_self _)⟩, fun t token save h => ?_⟩
  obtain ⟨skipped, after, hsplit⟩ := strtokR_splits h
  refine ⟨skipped, after, hsplit, ?_⟩
  rcases hsplit.after with ⟨rfl, rfl⟩ | ⟨d, hd, rfl⟩
  · simp
  · constructor
    · rintro rfl
      exact .inr ⟨d, hd, rfl⟩
    · rintro (h | ⟨d', -, h⟩)
      · cases h
      · exact (List.cons.inj h).2

theorem strtok_exact_slashes :
    ∃ skipped after, Splits delimiters ['/', 'a', '/'] ['a'] [] skipped after ∧
      ([] = ([] : List Char) ↔ after = [] ∨ ∃ d, delimiters.contains d = true ∧ after = [d]) :=
  (strtok_exact delimiters []).2 ['/', 'a', '/'] ['a'] [] (by decide)

end Tokens

end Cs162.Filesys
