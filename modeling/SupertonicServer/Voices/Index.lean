import SupertonicServer.Voices.Catalog

/-!
# The catalog as an index

A catalog is a faithful index of its directory when it does not depend on the order the
directory is read in, lists no name twice, and finds the file `name + ".json"` under each
name (`FaithfulIndex`). The pattern lets more names through than `str` writes: numbers with
leading zeros, digits of other scripts, a newline behind the suffix. Each of them is listed
under the name of another file, so the catalog is faithful exactly when none of them is there
(`catalog_faithful_iff`).
-/

namespace SupertonicServer.Voices

open Lib (eq_of_distinct mem_sortBy sortBy sortBy_eq_of_perm sortBy_increasing_iff)

/-- The entries of a directory: no two have one name. -/
structure Directory where
  entries : List DirEntry
  distinct : entries.Pairwise fun e e' => e.fileName ≠ e'.fileName

/-- The catalog is read from `dir`, in whatever order its entries are yielded. -/
def Reads (fs : FileSystem) (cacheDir : Option String) (dir : Directory) : Prop :=
  ∃ order, fs.iterdir (resolveCacheDir fs cacheDir) = some order ∧ order.Perm dir.entries

/-- `voices` is a faithful index of `dir`. -/
structure FaithfulIndex (repr : List Char → String) (dir : Directory) (voices : List Voice) :
    Prop where
  catalog : ∀ fs cacheDir, Reads fs cacheDir dir → listVoices fs cacheDir = .ok voices
  increasing : voices.Pairwise fun v w => v.key < w.key
  names : (voices.map Voice.name).Nodup
  path : ∀ v ∈ voices, ∃ entry ∈ dir.entries,
    entry.isFile = true ∧ entry.fileName = v.name ++ dotJson ∧ v.path = entry.resolved
  found : ∀ fs cacheDir, Reads fs cacheDir dir → ∀ v ∈ voices,
    getVoice repr fs v.name cacheDir = .ok v
  missing : ∀ fs cacheDir, Reads fs cacheDir dir → ∀ name, name ∉ voices.map Voice.name →
    ∃ message, getVoice repr fs name cacheDir = .error (.keyError message)

/-- `F<n>.json` or `M<n>.json` as `str` writes `n`, with no more digits than `int` reads. -/
def PlainName (fileName : List Char) : Prop :=
  ∃ gender n, (gender = 'F' ∨ gender = 'M') ∧ (Nat.toDigits 10 n).length ≤ maxStrDigits ∧
    fileName = gender :: Nat.toDigits 10 n ++ dotJson

/-- Every file of the directory that the pattern matches is named plainly. -/
def PlainlyNamed (dir : Directory) : Prop :=
  ∀ entry ∈ dir.entries, entry.isFile = true → voiceFileMatch entry.fileName ≠ none →
    PlainName entry.fileName

/-! ## Plain names -/

/-- The pattern matches the plain form of any number. -/
theorem voiceFile_plain {gender : Char} (h : gender = 'F' ∨ gender = 'M') (n : Nat) :
    VoiceFile (gender :: Nat.toDigits 10 n ++ dotJson) gender (Nat.toDigits 10 n) where
  gender := h
  nonempty := Nat.toDigits_ne_nil
  digits _ hc := isdecimal_of_mem_toDigits hc
  name := Or.inl rfl

/-- The groups the pattern finds in a plain name. -/
theorem PlainName.groups {fileName num : List Char} {gender : Char} (hplain : PlainName fileName)
    (hmatch : VoiceFile fileName gender num) :
    ∃ n, num = Nat.toDigits 10 n ∧ num.length ≤ maxStrDigits ∧
      fileName = gender :: num ++ dotJson := by
  obtain ⟨g, n, hg, hlen, hname⟩ := hplain
  have hplainly := voiceFile_plain hg n
  rw [← hname] at hplainly
  obtain ⟨rfl, rfl⟩ := hmatch.unique hplainly
  exact ⟨n, rfl, hlen, hname⟩

/-- A plainly named file is listed under the name of the file. -/
theorem voiceOf_plain {entry : DirEntry} {v : Voice} (hplain : PlainName entry.fileName)
    (h : voiceOf entry = .ok (some v)) : entry.fileName = v.name ++ dotJson := by
  obtain ⟨-, num, m, hmatch, hint, hvname, -⟩ := voiceOf_some_iff.mp h
  obtain ⟨n, rfl, -, hname⟩ := hplain.groups hmatch
  obtain ⟨-, rfl⟩ := int_ok_iff.mp hint
  rw [hname, hvname, digitsValue_toDigits]

/-- No plainly named file makes `list_voices` raise. -/
theorem voiceOf_ok {entry : DirEntry}
    (hplain : entry.isFile = true → voiceFileMatch entry.fileName ≠ none →
      PlainName entry.fileName) : ∃ o, voiceOf entry = .ok o := by
  unfold voiceOf
  split
  next => exact ⟨none, rfl⟩
  next hfile =>
    split
    next => exact ⟨none, rfl⟩
    next gender num hmatch =>
      have hname := hplain (by simpa using hfile) (by rw [hmatch]; simp)
      obtain ⟨n, -, hlen, -⟩ := hname.groups (voiceFileMatch_eq_some_iff.mp hmatch)
      rw [int_ok_iff.mpr ⟨hlen, rfl⟩]
      exact ⟨_, rfl⟩

/-! ## A plainly named directory has a faithful index -/

section Plain

variable {dir : Directory} (hplain : PlainlyNamed dir)

/-- The voices of a directory, in the order of the catalog. -/
def Directory.voices (dir : Directory) : List Voice :=
  sortBy Voice.key (dir.entries.filterMap listed)

theorem mem_voices {dir : Directory} {v : Voice} :
    v ∈ dir.voices ↔ ∃ entry ∈ dir.entries, voiceOf entry = .ok (some v) := by
  rw [Directory.voices, mem_sortBy, List.mem_filterMap]
  simp only [listed_eq_some_iff]

include hplain

/-- A listed voice is named after its file. -/
theorem fileName_eq {entry : DirEntry} (he : entry ∈ dir.entries) {v : Voice}
    (h : voiceOf entry = .ok (some v)) : entry.fileName = v.name ++ dotJson := by
  obtain ⟨hfile, num, n, hmatch, -⟩ := voiceOf_some_iff.mp h
  refine voiceOf_plain (hplain entry he hfile ?_) h
  rw [voiceFileMatch_eq_some_iff.mpr hmatch]
  simp

/-- Files of different names are listed with different keys. -/
theorem keys_distinct :
    (dir.entries.filterMap listed).Pairwise fun v w => v.key ≠ w.key := by
  rw [List.pairwise_filterMap]
  refine dir.distinct.imp_of_mem ?_
  intro e e' he he' hne v hv w hw hkey
  rw [listed_eq_some_iff] at hv hw
  have hname := fileName_eq hplain he hv
  have hname' := fileName_eq hplain he' hw
  exact hne (by rw [hname, hname', name_eq_of_key hv hw hkey])

/-- The catalog is the same for every order of the entries. -/
theorem listVoices_eq {fs : FileSystem} {cacheDir : Option String} (h : Reads fs cacheDir dir) :
    listVoices fs cacheDir = .ok dir.voices := by
  obtain ⟨order, horder, hperm⟩ := h
  have hcollect : collectVoices order = .ok (order.filterMap listed) := by
    refine collectVoices_ok_iff.mpr ⟨?_, rfl⟩
    intro entry he
    exact voiceOf_ok (hplain entry (hperm.mem_iff.mp he))
  have hsame : sortBy Voice.key (order.filterMap listed) = dir.voices :=
    sortBy_eq_of_perm (keys_distinct hplain) (hperm.filterMap listed)
  rw [listVoices, horder]
  dsimp only
  rw [hcollect, ← hsame]
  rfl

theorem voices_increasing : dir.voices.Pairwise fun v w => v.key < w.key :=
  sortBy_increasing_iff.mpr (keys_distinct hplain)

/-- No name is listed twice. -/
theorem names_distinct : dir.voices.Pairwise fun v w => v.name ≠ w.name := by
  refine (voices_increasing hplain).imp_of_mem ?_
  intro v w hv hw hlt hname
  obtain ⟨e, -, he⟩ := mem_voices.mp hv
  obtain ⟨e', -, he'⟩ := mem_voices.mp hw
  have hv := number_of_voiceOf he
  have hw := number_of_voiceOf he'
  have hgender : v.gender = w.gender := by
    rw [hv, hw] at hname
    exact (List.cons.inj hname).1
  have hkey : v.key = w.key := by
    rw [Voice.key, Voice.key, hgender, Voice.number, Voice.number, hname]
  exact absurd hlt (by rw [hkey]; exact lt_irrefl _)

theorem faithful_of_plain (repr : List Char → String) : FaithfulIndex repr dir dir.voices where
  catalog fs cacheDir h := listVoices_eq hplain h
  increasing := voices_increasing hplain
  names := List.pairwise_map.mpr (names_distinct hplain)
  path v hv := by
    obtain ⟨e, he, hvoice⟩ := mem_voices.mp hv
    obtain ⟨hfile, num, n, -, -, -, hpath⟩ := voiceOf_some_iff.mp hvoice
    exact ⟨e, he, hfile, fileName_eq hplain he hvoice, hpath⟩
  found fs cacheDir h v hv := by
    rw [getVoice, listVoices_eq hplain h]
    dsimp only
    cases hfind : dir.voices.find? fun w => w.name = v.name with
    | none => exact absurd (List.find?_eq_none.mp hfind v hv) (by simp)
    | some w =>
      -- the first voice of that name is the only one
      have hname : w.name = v.name := by simpa using List.find?_some hfind
      rw [eq_of_distinct (names_distinct hplain) (List.mem_of_find?_eq_some hfind) hv hname]
  missing fs cacheDir h name hname := by
    rw [getVoice, listVoices_eq hplain h]
    dsimp only
    cases hfind : dir.voices.find? fun w => w.name = name with
    | none => exact ⟨_, rfl⟩
    | some w =>
      have hw : w.name = name := by simpa using List.find?_some hfind
      exact absurd (List.mem_map.mpr ⟨w, List.mem_of_find?_eq_some hfind, hw⟩) hname

end Plain

/-! ## Only a plainly named directory has one -/

/-- What the catalog of a faithful index says about the loop. -/
theorem FaithfulIndex.voices_eq {repr : List Char → String} {dir : Directory}
    {voices : List Voice} (h : FaithfulIndex repr dir voices) :
    (∀ entry ∈ dir.entries, ∃ o, voiceOf entry = .ok o) ∧ voices = dir.voices := by
  have hlist := h.catalog { home := "", iterdir := fun _ => some dir.entries } none
    ⟨dir.entries, rfl, .refl _⟩
  rw [listVoices] at hlist
  dsimp only at hlist
  cases hcollect : collectVoices dir.entries with
  | error e =>
    rw [hcollect] at hlist
    exact nomatch hlist
  | ok collected =>
    rw [hcollect] at hlist
    obtain ⟨hall, hcollected⟩ := collectVoices_ok_iff.mp hcollect
    have hsorted : sortBy Voice.key collected = voices := Except.ok.inj hlist
    rw [hcollected] at hsorted
    exact ⟨hall, hsorted.symm⟩

/-- Two files that are listed with one key are one file. -/
theorem FaithfulIndex.entry_eq {repr : List Char → String} {dir : Directory}
    {voices : List Voice} (h : FaithfulIndex repr dir voices) {e e' : DirEntry}
    (he : e ∈ dir.entries) (he' : e' ∈ dir.entries) {v w : Voice}
    (hv : voiceOf e = .ok (some v)) (hw : voiceOf e' = .ok (some w)) (hkey : v.key = w.key) :
    e = e' := by
  have hincreasing := h.increasing
  rw [h.voices_eq.2, Directory.voices, sortBy_increasing_iff, List.pairwise_filterMap]
    at hincreasing
  have hsymm : Std.Symm fun e e' : DirEntry =>
      ∀ v, listed e = some v → ∀ w, listed e' = some w → v.key ≠ w.key :=
    ⟨fun _ _ hne v hv w hw => Ne.symm (hne w hw v hv)⟩
  by_contra hne
  exact hincreasing.forall he he' hne v (listed_eq_some_iff.mpr hv) w
    (listed_eq_some_iff.mpr hw) hkey

theorem plain_of_faithful {repr : List Char → String} {dir : Directory} {voices : List Voice}
    (h : FaithfulIndex repr dir voices) : PlainlyNamed dir := by
  intro e he hfile hmatches
  obtain ⟨hall, hvoices⟩ := h.voices_eq
  obtain ⟨⟨gender, num⟩, hsome⟩ := Option.ne_none_iff_exists'.mp hmatches
  have hmatch := voiceFileMatch_eq_some_iff.mp hsome
  obtain ⟨n, hint, hvoice⟩ := voiceOf_of_match hfile hmatch (hall e he)
  -- the file its name stands for is in the directory, and is listed under that name too
  obtain ⟨e', he', hfile', hname', -⟩ := h.path _ (hvoices ▸ mem_voices.mpr ⟨e, he, hvoice⟩)
  have hmatch' := voiceFile_plain hmatch.gender n
  rw [show gender :: Nat.toDigits 10 n ++ dotJson = e'.fileName from hname'.symm] at hmatch'
  obtain ⟨m, hint', hvoice'⟩ := voiceOf_of_match hfile' hmatch' (hall e' he')
  obtain ⟨hlen, rfl⟩ := int_ok_iff.mp hint'
  rw [digitsValue_toDigits] at hvoice'
  obtain rfl : e = e' := h.entry_eq he he' hvoice hvoice' rfl
  exact ⟨gender, n, hmatch.gender, hlen, hname'⟩

/-- **A faithful index**: the catalog of a directory is one exactly when every file the pattern
matches is named as `str` writes its number. -/
theorem catalog_faithful_iff (repr : List Char → String) (dir : Directory) :
    (∃ voices, FaithfulIndex repr dir voices) ↔ PlainlyNamed dir := by
  constructor
  · intro h
    obtain ⟨voices, hvoices⟩ := h
    exact plain_of_faithful hvoices
  · intro hplain
    exact ⟨dir.voices, faithful_of_plain hplain repr⟩

/-- The file `F1.json`, and one named the same with the digit one of Arabic script. -/
def twoOnes : Directory where
  entries := [⟨"F1.json".toList, true, "/voices/F1.json"⟩,
    ⟨"F\u0661.json".toList, true, "/voices/F\u0661.json"⟩]
  distinct := by decide

/-- Both files are listed as `F1`, in the order the directory is read. -/
theorem two_voices_one_name :
    ¬ ∀ (repr : List Char → String) (dir : Directory),
      ∃ voices, FaithfulIndex repr dir voices := by
  intro h
  obtain ⟨voices, hvoices⟩ := h String.ofList twoOnes
  have hread := hvoices.catalog { home := "", iterdir := fun _ => some twoOnes.entries } none
    ⟨_, rfl, .refl _⟩
  have hreversed := hvoices.catalog
    { home := "", iterdir := fun _ => some twoOnes.entries.reverse } none
    ⟨_, rfl, List.reverse_perm _⟩
  have hdiffer : listVoices { home := "", iterdir := fun _ => some twoOnes.entries } ≠
      listVoices { home := "", iterdir := fun _ => some twoOnes.entries.reverse } := by decide
  exact hdiffer (hread.trans hreversed.symm)

end SupertonicServer.Voices
