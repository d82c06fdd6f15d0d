import Cs162.Filesys.Directory

namespace Cs162.Userprog.NameBuffers
open Filesys

abbrev Stores := List (List Char)

def nul : Char := '\x00'

def written : Stores → ℕ
  | [] => 0
  | bytes :: stores => max bytes.length (written stores)

def strlcpy (src : Name) (size : ℕ) : List Char := if size = 0 then [] else src.take (size - 1) ++ [nul]

def pgSize : ℕ := 4096

def fnCopy (fileName : Name) : Name := (strlcpy fileName pgSize).dropLast

def processNameLoop : Name → List Char
  | [] => [nul]
  | t :: fnCopy => if t ≠ ' ' ∧ t ≠ '\t' then t :: processNameLoop fnCopy else [nul]

def processName (fileName : Name) : Stores := [processNameLoop (fnCopy fileName)]

def processNameSize : ℕ := 16

def firstToken (fileName : Name) : Name := fileName.takeWhile fun c => c ≠ ' ' ∧ c ≠ '\t'

theorem fnCopy_eq (fileName : Name) : fnCopy fileName = fileName.take 4095 := by
  unfold fnCopy strlcpy pgSize
  rw [if_neg (by decide), List.dropLast_concat]

theorem processNameLoop_eq (s : Name) : processNameLoop s = firstToken s ++ [nul] := by
  induction s with
  | nil => rfl
  | cons t s ih =>
    unfold processNameLoop firstToken
    by_cases ht : t ≠ ' ' ∧ t ≠ '\t'
    · rw [if_pos ht, ih, List.takeWhile_cons_of_pos (by simpa using ht)]
      rfl
    · rw [if_neg ht, List.takeWhile_cons_of_neg (by simpa using ht)]
      rfl

theorem length_firstToken_take (s : Name) (n : ℕ) : (firstToken (s.take n)).length = min n (firstToken s).length := by
  unfold firstToken
  induction s generalizing n with
  | nil => simp
  | cons c s ih =>
    cases n with
    | zero => simp
    | succ n =>
      rw [List.take_succ_cons]
      by_cases hc : c ≠ ' ' ∧ c ≠ '\t'
      · rw [List.takeWhile_cons_of_pos (by simpa using hc), List.takeWhile_cons_of_pos (by simpa using hc),
          List.length_cons, List.length_cons, ih, Nat.succ_min_succ]
      · rw [List.takeWhile_cons_of_neg (by simpa using hc), List.takeWhile_cons_of_neg (by simpa using hc)]
        simp

theorem written_processName (fileName : Name) :
    written (processName fileName) = min 4095 (firstToken fileName).length + 1 := by
  simp only [processName, written, processNameLoop_eq, fnCopy_eq, List.length_append, length_firstToken_take,
    List.length_singleton, Nat.max_zero]

def fileNameLoop (fs : Dirs) : ℕ → List Char → Inumber → Stores
  | 0, _, _ => []
  | n + 1, path, workingDir =>
    match strtokR delimiters path with
    | (none, _) => []
    | (some token, savePtr) =>
      if savePtr = [] then strlcpy token (token.length + 1) :: fileNameLoop fs n savePtr workingDir
      else
        match fs.dirLookup workingDir token with
        | none => []
        | some inode => if fs.isDir inode then fileNameLoop fs n savePtr inode else []

def fileName (fs : Dirs) (curDir : Inumber) (path : List Char) : Stores :=
  [nul] ::
    if path = [] then []
    else if path = ['/'] then [[nul]]
    else fileNameLoop fs (path.length + 1) path (Dirs.workingDir curDir path)

def filesysMkdirDirName (fs : Dirs) (curDir : Inumber) (name : List Char) : Stores := fileName fs curDir name

def sysChdirFileName (fs : Dirs) (curDir : Inumber) (dir : List Char) : Stores := fileName fs curDir dir

theorem strlcpy_all (token : Name) : strlcpy token (token.length + 1) = token ++ [nul] := by
  unfold strlcpy
  rw [if_neg (Nat.succ_ne_zero _), Nat.add_sub_cancel, List.take_length]

theorem fileNameLoop_nil (fs : Dirs) (n : ℕ) (dir : Inumber) : fileNameLoop fs n [] dir = [] := by
  cases n <;> rfl

def lastName : Walk → Name → Name
  | .reached _, name => name
  | _, _ => []

theorem fileNameLoop_eq (fs : Dirs) (n : ℕ) (path : List Char) (dir : Inumber) :
    ([nul] :: fileNameLoop fs n path dir).getLast? =
        some (lastName (fs.follow dir (splitLoop n path).1) (splitLoop n path).2 ++ [nul]) ∧
      written ([nul] :: fileNameLoop fs n path dir) =
        (lastName (fs.follow dir (splitLoop n path).1) (splitLoop n path).2).length + 1 := by
  induction n generalizing path dir with
  | zero => exact ⟨rfl, rfl⟩
  | succ n ih =>
    rcases htok : strtokR delimiters path with ⟨_ | token, savePtr⟩
    · simp [fileNameLoop, splitLoop, htok, Dirs.follow, written, lastName]
    · by_cases hend : savePtr = []
      · simp [fileNameLoop, splitLoop, htok, hend, fileNameLoop_nil, Dirs.follow, written, strlcpy_all, lastName]
      · rcases hlook : fs.dirLookup dir token with _ | next
        · simp [fileNameLoop, splitLoop, htok, hend, hlook, Dirs.follow, written, lastName]
        · by_cases hdir : fs.isDir next
          · have hrec := ih savePtr next
            simpa only [fileNameLoop, splitLoop, htok, hend, hlook, hdir, Dirs.follow, if_false, if_true] using hrec
          · simp [fileNameLoop, splitLoop, htok, hend, hlook, hdir, Dirs.follow, written, lastName]

theorem fileName_eq (fs : Dirs) (curDir : Inumber) (path : List Char) :
    (fileName fs curDir path).getLast? = some ((fs.inodeOpenPath curDir path).2 ++ [nul]) ∧
      written (fileName fs curDir path) = (fs.inodeOpenPath curDir path).2.length + 1 := by
  by_cases hne : path = []
  · subst hne
    exact ⟨rfl, rfl⟩
  by_cases hroot : path = ['/']
  · subst hroot
    exact ⟨rfl, rfl⟩
  have hloop := fileNameLoop_eq fs (path.length + 1) path (Dirs.workingDir curDir path)
  have hname : (fs.inodeOpenPath curDir path).2 =
      lastName (fs.follow (Dirs.workingDir curDir path) (splitPath path).1) (splitPath path).2 := by
    rw [inodeOpenPath_eq hne hroot]
    cases fs.follow (Dirs.workingDir curDir path) (splitPath path).1 <;> rfl
  rw [fileName, if_neg hne, if_neg hroot, hname]
  exact hloop

def LastNameFits (fs : Dirs) (curDir : Inumber) (path : List Char) : Prop :=
  ∀ dir, fs.follow (Dirs.workingDir curDir path) (splitPath path).1 = .reached dir → (splitPath path).2.length ≤ nameMax

theorem written_fileName_le_iff (fs : Dirs) (curDir : Inumber) (path : List Char) :
    written (fileName fs curDir path) ≤ nameMax + 1 ↔ LastNameFits fs curDir path := by
  rw [(fileName_eq fs curDir path).2, Nat.add_le_add_iff_right]
  unfold LastNameFits
  by_cases hne : path = []
  · subst hne
    exact iff_of_true (Nat.zero_le nameMax) fun _ _ => by decide
  by_cases hroot : path = ['/']
  · subst hroot
    exact iff_of_true (Nat.zero_le nameMax) fun _ _ => by decide
  rw [inodeOpenPath_eq hne hroot]
  cases fs.follow (Dirs.workingDir curDir path) (splitPath path).1 with
  | reached dir => exact ⟨fun h _ _ => h, fun h => h dir rfl⟩
  | missing => exact iff_of_true (Nat.zero_le _) fun _ h => Walk.noConfusion h
  | blocked inode => exact iff_of_true (Nat.zero_le _) fun _ h => Walk.noConfusion h

theorem buffers_hold_iff (fs : Dirs) (curDir : Inumber) (s : Name) :
    (written (processName s) ≤ processNameSize ↔ (firstToken s).length ≤ 15) ∧
      (written (filesysMkdirDirName fs curDir s) ≤ nameMax + 1 ↔ LastNameFits fs curDir s) ∧
      (written (sysChdirFileName fs curDir s) ≤ nameMax + 1 ↔ LastNameFits fs curDir s) := by
  refine ⟨?_, written_fileName_le_iff fs curDir s, written_fileName_le_iff fs curDir s⟩
  rw [written_processName]
  unfold processNameSize
  omega

theorem buffers_overrun :
    written (processName (List.replicate 16 'a')) = 17 ∧
      written (filesysMkdirDirName oneFile rootInumber (List.replicate 16 'a')) = 17 ∧
      written (sysChdirFileName oneFile rootInumber (List.replicate 16 'a')) = 17 := by
  decide +kernel

end Cs162.Userprog.NameBuffers
