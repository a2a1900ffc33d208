import Mathlib.Data.Char
import Mathlib.Data.List.TakeWhile
import Mathlib.Data.Prod.Lex
import SupertonicServer.Lib.SortBy
import SupertonicServer.Voices.Numeral

/-!
# The voice catalog

`voices.py`: the voice-style files of a directory, as a list ordered by gender and number.
A file name is the list of its characters. What the functions take from the file system is
`FileSystem`: the home directory and, for a path, the entries in the order `iterdir` yields
them. `repr` of a string, which only goes into a message, is a parameter.
-/

namespace SupertonicServer.Voices

open Lib (sortBy)

/-- A directory entry: `entry.name`, `entry.is_file()` and `entry.resolve()`. -/
structure DirEntry where
  fileName : List Char
  isFile : Bool
  resolved : String

structure FileSystem where
  home : String
  /-- `None` where there is no directory -/
  iterdir : String → Option (List DirEntry)

structure Voice where
  name : List Char
  gender : Char
  path : String
deriving DecidableEq

inductive CatalogError where
  | valueError (message : String)
  | keyError (message : String)
deriving DecidableEq

/-- `DEFAULT_CACHE_DIR`. -/
def defaultCacheDir (fs : FileSystem) : String := fs.home ++ "/.cache/supertonic3/voice_styles"

/-- `_resolve_cache_dir`. -/
def resolveCacheDir (fs : FileSystem) (cacheDir : Option String) : String :=
  cacheDir.getD (defaultCacheDir fs)

def dotJson : List Char := ['.', 'j', 's', 'o', 'n']

/-- `_VOICE_FILE_RE.match`: the groups `gender` and `num`. -/
def voiceFileMatch : List Char → Option (Char × List Char)
  | [] => none
  | gender :: rest =>
    -- `\d+` has to take every digit there is, since none of them matches the full stop
    let num := rest.takeWhile isdecimal
    let tail := rest.dropWhile isdecimal
    -- `$` matches at the end and in front of a newline at the end
    if (gender = 'F' ∨ gender = 'M') ∧ num ≠ [] ∧ (tail = dotJson ∨ tail = dotJson ++ ['\n']) then
      some (gender, num)
    else none

/-- The body of the loop of `list_voices`: the voice it appends, if it appends one. -/
def voiceOf (entry : DirEntry) : Except CatalogError (Option Voice) :=
  if !entry.isFile then .ok none
  else
    match voiceFileMatch entry.fileName with
    | none => .ok none
    | some (gender, num) =>
      match int num with
      | .error message => .error (.valueError message)
      | .ok n =>
        .ok (some
          { name := gender :: Nat.toDigits 10 n, gender := gender, path := entry.resolved })

/-- The loop of `list_voices`. -/
def collectVoices : List DirEntry → Except CatalogError (List Voice)
  | [] => .ok []
  | entry :: entries =>
    match voiceOf entry with
    | .error e => .error e
    | .ok none => collectVoices entries
    | .ok (some v) => (collectVoices entries).map (v :: ·)

/-- `int(v.name[1:])`. -/
def Voice.number (v : Voice) : Nat := digitsValue (v.name.drop 1)

/-- The sort key of `list_voices`; its `int` does not raise (`int_name`). -/
def Voice.key (v : Voice) : Char ×ₗ Nat := toLex (v.gender, v.number)

def listVoices (fs : FileSystem) (cacheDir : Option String := none) :
    Except CatalogError (List Voice) :=
  match fs.iterdir (resolveCacheDir fs cacheDir) with
  | none => .ok []
  | some entries => (collectVoices entries).map (sortBy Voice.key)

/-- The message of the `KeyError` of `get_voice`. -/
def notFound (repr : List Char → String) (root : String) (available : List Voice)
    (name : List Char) : String :=
  let names := ", ".intercalate (available.map fun v => String.ofList v.name)
  let availNames := if names.isEmpty then "<none>" else names
  s!"voice {repr name} not found in {root} (available: {availNames})"

def getVoice (repr : List Char → String) (fs : FileSystem) (name : List Char)
    (cacheDir : Option String := none) : Except CatalogError Voice :=
  match listVoices fs cacheDir with
  | .error e => .error e
  | .ok available =>
    match available.find? fun v => v.name = name with
    | some v => .ok v
    | none => .error (.keyError (notFound repr (resolveCacheDir fs cacheDir) available name))

/-! ## What the pattern matches -/

/-- The file names `_VOICE_FILE_RE` matches, with its two groups. -/
structure VoiceFile (fileName : List Char) (g : Char) (num : List Char) : Prop where
  gender : g = 'F' ∨ g = 'M'
  nonempty : num ≠ []
  digits : ∀ c ∈ num, isdecimal c = true
  name : fileName = g :: (num ++ dotJson) ∨ fileName = g :: (num ++ dotJson ++ ['\n'])

/-- A run of digits in front of the suffix is all of the digits there. -/
theorem takeWhile_isdecimal {num tail : List Char} (hnum : ∀ c ∈ num, isdecimal c = true)
    (htail : tail = dotJson ∨ tail = dotJson ++ ['\n']) :
    (num ++ tail).takeWhile isdecimal = num ∧ (num ++ tail).dropWhile isdecimal = tail := by
  have hstop : isdecimal '.' = false := by decide
  rw [List.takeWhile_append_of_pos hnum, List.dropWhile_append_of_pos hnum]
  rcases htail with rfl | rfl
  · simp [dotJson, hstop]
  · simp [dotJson, hstop]

theorem voiceFileMatch_eq_some_iff {fileName : List Char} {gender : Char} {num : List Char} :
    voiceFileMatch fileName = some (gender, num) ↔ VoiceFile fileName gender num := by
  constructor
  · intro h
    unfold voiceFileMatch at h
    split at h
    next => exact absurd h (by simp)
    next g rest =>
      dsimp only at h
      split at h
      next hmatch =>
        obtain ⟨rfl, rfl⟩ := Prod.mk.inj (Option.some.inj h)
        obtain ⟨hgender, hne, htail⟩ := hmatch
        have hsplit : rest.takeWhile isdecimal ++ rest.dropWhile isdecimal = rest :=
          List.takeWhile_append_dropWhile
        refine ⟨hgender, hne, fun c hc => List.mem_takeWhile_imp hc, ?_⟩
        rcases htail with htail | htail
        · rw [htail] at hsplit
          exact Or.inl (by rw [hsplit])
        · rw [htail, ← List.append_assoc] at hsplit
          exact Or.inr (by rw [hsplit])
      next => exact absurd h (by simp)
  · intro h
    obtain ⟨tail, htail, hname⟩ : ∃ tail, (tail = dotJson ∨ tail = dotJson ++ ['\n']) ∧
        fileName = gender :: (num ++ tail) := by
      rcases h.name with hname | hname
      · exact ⟨dotJson, Or.inl rfl, hname⟩
      · exact ⟨dotJson ++ ['\n'], Or.inr rfl, by rw [hname, List.append_assoc]⟩
    obtain ⟨htake, hdrop⟩ := takeWhile_isdecimal h.digits htail
    rw [hname, voiceFileMatch, htake, hdrop, if_pos ⟨h.gender, h.nonempty, htail⟩]

/-- The groups of a match are determined. -/
theorem VoiceFile.unique {fileName num num' : List Char} {gender gender' : Char}
    (h : VoiceFile fileName gender num) (h' : VoiceFile fileName gender' num') :
    gender = gender' ∧ num = num' := by
  have hsame := (voiceFileMatch_eq_some_iff.mpr h).symm.trans (voiceFileMatch_eq_some_iff.mpr h')
  exact Prod.mk.inj (Option.some.inj hsame)

/-! ## What is listed -/

theorem voiceOf_some_iff {entry : DirEntry} {v : Voice} :
    voiceOf entry = .ok (some v) ↔
      entry.isFile = true ∧ ∃ num n, VoiceFile entry.fileName v.gender num ∧ int num = .ok n ∧
        v.name = v.gender :: Nat.toDigits 10 n ∧ v.path = entry.resolved := by
  unfold voiceOf
  constructor
  · intro h
    split at h
    next => exact absurd h (by simp)
    next hfile =>
      split at h
      next => exact absurd h (by simp)
      next gender num hmatch =>
        split at h
        next => exact absurd h (by simp)
        next n hint =>
          obtain rfl := Option.some.inj (Except.ok.inj h)
          exact ⟨by simpa using hfile, num, n, voiceFileMatch_eq_some_iff.mp hmatch, hint, rfl, rfl⟩
  · intro h
    obtain ⟨hfile, num, n, hmatch, hint, hname, hpath⟩ := h
    rw [if_neg (by simp [hfile]), voiceFileMatch_eq_some_iff.mpr hmatch]
    dsimp only
    rw [hint]
    dsimp only
    rw [← hname, ← hpath]

/-- A file that matches is listed, if its number can be read. -/
theorem voiceOf_of_match {entry : DirEntry} {gender : Char} {num : List Char}
    (hfile : entry.isFile = true) (hmatch : VoiceFile entry.fileName gender num)
    (hok : ∃ o, voiceOf entry = .ok o) :
    ∃ n, int num = .ok n ∧
      voiceOf entry = .ok (some ⟨gender :: Nat.toDigits 10 n, gender, entry.resolved⟩) := by
  obtain ⟨o, ho⟩ := hok
  unfold voiceOf at ho ⊢
  rw [if_neg (by simp [hfile]), voiceFileMatch_eq_some_iff.mpr hmatch] at ho ⊢
  dsimp only at ho ⊢
  cases hint : int num with
  | error message =>
    rw [hint] at ho
    exact absurd ho (by simp)
  | ok n => exact ⟨n, rfl, rfl⟩

/-- The number of a listed voice is the one its file name holds. -/
theorem number_of_voiceOf {entry : DirEntry} {v : Voice} (h : voiceOf entry = .ok (some v)) :
    v.name = v.gender :: Nat.toDigits 10 v.number := by
  obtain ⟨-, num, n, -, -, hname, -⟩ := voiceOf_some_iff.mp h
  have hnumber : v.number = n := by
    rw [Voice.number, hname, List.drop_one, List.tail_cons, digitsValue_toDigits]
  rw [hnumber]
  exact hname

/-- The `int` of the sort key reads the number of every listed voice. -/
theorem int_name {entry : DirEntry} {v : Voice} (h : voiceOf entry = .ok (some v)) :
    int (v.name.drop 1) = .ok v.number := by
  obtain ⟨-, num, n, hmatch, hint, hname, -⟩ := voiceOf_some_iff.mp h
  rw [Voice.number, hname, List.drop_one, List.tail_cons, digitsValue_toDigits]
  exact int_toDigits hmatch.nonempty hint

/-- Voices with one key have one name. -/
theorem name_eq_of_key {entry entry' : DirEntry} {v v' : Voice}
    (h : voiceOf entry = .ok (some v)) (h' : voiceOf entry' = .ok (some v'))
    (hkey : v.key = v'.key) : v.name = v'.name := by
  obtain ⟨hgender, hnumber⟩ := Prod.mk.inj (toLex.injective hkey)
  rw [number_of_voiceOf h, number_of_voiceOf h', hgender, hnumber]

/-- The voice an entry contributes. -/
def listed (entry : DirEntry) : Option Voice :=
  match voiceOf entry with
  | .ok o => o
  | .error _ => none

theorem listed_eq_some_iff {entry : DirEntry} {v : Voice} :
    listed entry = some v ↔ voiceOf entry = .ok (some v) := by
  unfold listed
  cases voiceOf entry with
  | ok o => simp
  | error e => simp

/-- The loop returns the voices of the entries in their order, unless one of them raises. -/
theorem collectVoices_ok_iff {entries : List DirEntry} {voices : List Voice} :
    collectVoices entries = .ok voices ↔
      (∀ entry ∈ entries, ∃ o, voiceOf entry = .ok o) ∧ voices = entries.filterMap listed := by
  induction entries generalizing voices with
  | nil => simp [collectVoices, eq_comm]
  | cons entry entries ih =>
    rw [List.forall_mem_cons, List.filterMap_cons, collectVoices]
    cases hentry : voiceOf entry with
    | error e => simp
    | ok o =>
      have hlisted : listed entry = o := by rw [listed, hentry]
      rw [hlisted]
      cases o with
      | none =>
        dsimp only
        rw [ih]
        simp
      | some v =>
        dsimp only
        cases hrest : collectVoices entries with
        | error e =>
          have hno : ¬ ∀ entry ∈ entries, ∃ o, voiceOf entry = .ok o := by
            intro hall
            rw [ih.mpr ⟨hall, rfl⟩] at hrest
            exact absurd hrest (by simp)
          exact iff_of_false (by simp [Except.map]) (fun h => hno h.1.2)
        | ok rest =>
          obtain ⟨hall, rfl⟩ := ih.mp hrest
          simp only [Except.map, Except.ok.injEq]
          constructor
          · intro h
            exact ⟨⟨⟨_, rfl⟩, hall⟩, h.symm⟩
          · intro h
            exact h.2.symm

end SupertonicServer.Voices
