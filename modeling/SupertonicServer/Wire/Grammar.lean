import SupertonicServer.Wire.Decode

/-!
# The grammar of client frames

Which JSON objects are frames, stated key by key (`CancelFrame`, `TextFrame`), and the
object form of a text frame (`IncomingText.print`). The checks of the decoder, made one after
another, amount to reading every key of an object once (`Reads`); what `decode` accepts, what
it returns and the round trip with `print` all follow from that.
-/

namespace SupertonicServer.Wire

/-! ## Frames as objects -/

/-- A cancel frame for the context `c`. -/
structure CancelFrame (obj : Members) (c : String) : Prop where
  cancel : obj.get "cancel" = .bool true
  contextId : obj.get "context_id" = .str c
  nonempty : c ≠ ""

/-- A text frame. An optional string or object may be absent or `null`, an optional flag
only absent. -/
structure TextFrame (obj : Members) : Prop where
  contextId : ∃ c, obj.get "context_id" = .str c ∧ c ≠ ""
  transcript : ∃ s, obj.get "transcript" = .str s
  continue_ : ∃ b, obj.get "continue" = .bool b
  voice : ∃ v, obj.get "voice" = .obj v ∧
    (∃ s, Members.get v "mode" = .str s) ∧ ∃ s, Members.get v "id" = .str s
  outputFormat : ∃ f, obj.get "output_format" = .obj f ∧
    (∃ s, Members.get f "container" = .str s) ∧ (∃ s, Members.get f "encoding" = .str s) ∧
    ∃ n, Members.get f "sample_rate" = .int n ∧ 0 < n
  strings : ∀ key ∈ ["model_id", "language", "pronunciation_dict_id"],
    obj.get key = .null ∨ ∃ s, obj.get key = .str s
  generationConfig : obj.get "generation_config" = .null ∨
    ∃ v, obj.get "generation_config" = .obj v
  flags : ∀ key ∈ ["add_timestamps", "use_original_timestamps"],
    obj.lookup key = none ∨ ∃ b, obj.lookup key = some (.bool b)

/-- A member that is left out for `None`. -/
def optionalMember (key : String) : Option Json → Members
  | none => []
  | some v => [(key, v)]

/-- The known members of a text frame, in the order of the documented form. -/
def IncomingText.fields (m : IncomingText) : Members :=
  [("transcript", .str m.transcript), ("continue", .bool m.continue_),
    ("context_id", .str m.contextId)]
  ++ optionalMember "model_id" (m.modelId.map .str)
  ++ [("voice", .obj [("mode", .str m.voice.mode), ("id", .str m.voice.id)]),
    ("output_format", .obj [("container", .str m.outputFormat.container),
      ("encoding", .str m.outputFormat.encoding),
      ("sample_rate", .int m.outputFormat.sampleRate)]),
    ("add_timestamps", .bool m.addTimestamps),
    ("use_original_timestamps", .bool m.useOriginalTimestamps)]
  ++ optionalMember "language" (m.language.map .str)
  ++ optionalMember "generation_config" (m.generationConfig.map .obj)
  ++ optionalMember "pronunciation_dict_id" (m.pronunciationDictId.map .str)

/-- The object form of a text frame. -/
def IncomingText.print (m : IncomingText) : Members := m.fields ++ m.extra

/-- Two objects with the same values under `keys`. -/
def SameOn (keys : List String) (v w : Json) : Prop :=
  ∃ vs ws : Members, v = .obj vs ∧ w = .obj ws ∧ ∀ key ∈ keys, vs.lookup key = ws.lookup key

/-- The printed object `p` equals `o` up to what the decoder does not keep: an absent
optional may be a `null` or the default in `o`, and `o` may have further keys inside `voice`
and `output_format` and a `cancel` that is not `true`. -/
structure SameFrame (p o : Members) : Prop where
  required : ∀ key ∈ ["context_id", "transcript", "continue"], p.lookup key = o.lookup key
  voice : SameOn ["mode", "id"] (p.get "voice") (o.get "voice")
  outputFormat : SameOn ["container", "encoding", "sample_rate"]
    (p.get "output_format") (o.get "output_format")
  optionals : ∀ key ∈ ["model_id", "language", "generation_config", "pronunciation_dict_id"],
    p.get key = o.get key
  flags : ∀ key ∈ ["add_timestamps", "use_original_timestamps"],
    p.getD key (.bool false) = o.getD key (.bool false)
  cancel : p.lookup "cancel" = none ∧ o.get "cancel" ≠ .bool true
  extra : ∀ key, key ∉ knownKeys → p.lookup key = o.lookup key

/-! ## What the checks accept -/

theorem bind_ok_iff {ε α β : Type} {x : Except ε α} {f : α → Except ε β} {b : β} :
    (x >>= f) = .ok b ↔ ∃ a, x = .ok a ∧ f a = .ok b := by
  cases x with
  | error e => simp [bind, Except.bind]
  | ok a =>
    constructor
    · intro h
      exact ⟨a, rfl, h⟩
    · intro h
      obtain ⟨a', ha, hf⟩ := h
      obtain rfl : a = a' := Except.ok.inj ha
      exact hf

theorem asStr_ok_iff {v : Json} {reason s : String} : asStr v reason = .ok s ↔ v = .str s := by
  cases v <;> simp [asStr]

theorem asNonEmptyStr_ok_iff {v : Json} {reason s : String} :
    asNonEmptyStr v reason = .ok s ↔ v = .str s ∧ s ≠ "" := by
  unfold asNonEmptyStr
  split
  next t =>
    split
    next he => simp [he]
    next hne =>
      simp only [Except.ok.injEq, Json.str.injEq]
      constructor
      · intro h
        exact ⟨h, h ▸ hne⟩
      · intro h
        exact h.1
  next v hv => simp_all

theorem asBool_ok_iff {v : Json} {reason : String} {b : Bool} :
    asBool v reason = .ok b ↔ v = .bool b := by
  cases v <;> simp [asBool]

theorem asObj_ok_iff {v : Json} {reason : String} {members : Members} :
    asObj v reason = .ok members ↔ v = .obj members := by
  cases v <;> simp [asObj]

theorem asPositiveInt_ok_iff {v : Json} {reason : String} {n : Int} :
    asPositiveInt v reason = .ok n ↔ v = .int n ∧ 0 < n := by
  unfold asPositiveInt
  split
  next k =>
    split
    next hle =>
      constructor
      · intro h
        exact nomatch h
      · intro h
        obtain rfl : k = n := Json.int.inj h.1
        omega
    next hpos =>
      simp only [Except.ok.injEq, Json.int.injEq]
      omega
  next v hv => simp_all

/-- `None` as `null`. -/
def orNull : Option Json → Json
  | none => .null
  | some v => v

/-- An optional check reads `null` as `None`, when what it checks for is not `null`. -/
theorem optional_ok_iff {α : Type} {check : Json → String → Except String α} {mk : α → Json}
    (hcheck : ∀ v reason a, check v reason = .ok a ↔ v = mk a) (hmk : ∀ a, mk a ≠ .null)
    {v : Json} {reason : String} {o : Option α} :
    optional check v reason = .ok o ↔ v = orNull (o.map mk) := by
  cases hv : v with
  | null =>
    cases o with
    | none => simp [optional, orNull]
    | some a => simpa [optional, orNull] using (hmk a).symm
  | _ =>
    rw [← hv]
    have hopt : optional check v reason = (check v reason).map some := by rw [hv]; rfl
    have hne : v ≠ .null := by rw [hv]; exact fun h => nomatch h
    rw [hopt]
    cases h : check v reason with
    | error e =>
      constructor
      · intro hok
        exact nomatch hok
      · intro heq
        cases o with
        | none => exact absurd heq hne
        | some a =>
          rw [(hcheck v reason a).mpr heq] at h
          exact nomatch h
    | ok a =>
      have ha := (hcheck v reason a).mp h
      show Except.ok (some a) = Except.ok o ↔ _
      rw [Except.ok.injEq]
      constructor
      · intro ho
        rw [← ho]
        exact ha
      · intro heq
        cases o with
        | none => exact absurd heq hne
        | some b =>
          rw [(hcheck v reason b).mpr heq] at h
          exact congrArg some (Except.ok.inj h).symm

/-! ## One reading of every key -/

/-- `m` is what the keys of `obj` hold. -/
structure Reads (obj : Members) (m : IncomingText) : Prop where
  contextId : obj.get "context_id" = .str m.contextId
  nonempty : m.contextId ≠ ""
  transcript : obj.get "transcript" = .str m.transcript
  continue_ : obj.get "continue" = .bool m.continue_
  voice : ∃ v, obj.get "voice" = .obj v ∧
    Members.get v "mode" = .str m.voice.mode ∧ Members.get v "id" = .str m.voice.id
  outputFormat : ∃ f, obj.get "output_format" = .obj f ∧
    Members.get f "container" = .str m.outputFormat.container ∧
    Members.get f "encoding" = .str m.outputFormat.encoding ∧
    Members.get f "sample_rate" = .int m.outputFormat.sampleRate
  rate_pos : 0 < m.outputFormat.sampleRate
  modelId : obj.get "model_id" = orNull (m.modelId.map .str)
  language : obj.get "language" = orNull (m.language.map .str)
  addTimestamps : obj.getD "add_timestamps" (.bool false) = .bool m.addTimestamps
  useOriginalTimestamps :
    obj.getD "use_original_timestamps" (.bool false) = .bool m.useOriginalTimestamps
  generationConfig : obj.get "generation_config" = orNull (m.generationConfig.map .obj)
  pronunciationDictId :
    obj.get "pronunciation_dict_id" = orNull (m.pronunciationDictId.map .str)
  extra : m.extra = obj.filter fun kv => !knownKeys.contains kv.1

theorem optionalStr_ok_iff {v : Json} {reason : String} {o : Option String} :
    optional asStr v reason = .ok o ↔ v = orNull (o.map .str) :=
  optional_ok_iff (fun _ _ _ => asStr_ok_iff) (fun _ h => nomatch h)

theorem optionalObj_ok_iff {v : Json} {reason : String} {o : Option Members} :
    optional asObj v reason = .ok o ↔ v = orNull (o.map .obj) :=
  optional_ok_iff (fun _ _ _ => asObj_ok_iff) (fun _ h => nomatch h)

/-- The checks pass with `m` exactly when `m` is what the keys hold. -/
theorem decodeFields_ok_iff {obj : Members} {m : IncomingText} :
    decodeFields obj = .ok m ↔ Reads obj m := by
  unfold decodeFields
  simp only [bind_ok_iff, asStr_ok_iff, asNonEmptyStr_ok_iff, asBool_ok_iff, asObj_ok_iff,
    asPositiveInt_ok_iff, optionalStr_ok_iff, optionalObj_ok_iff]
  constructor
  · intro h
    obtain ⟨ctx, ⟨hctx, hne⟩, transcript, htranscript, cont, hcont, v, hv, mode, hmode, id, hid,
      f, hf, container, hcontainer, encoding, hencoding, sr, ⟨hsr, hpos⟩, modelId, hmodel,
      language, hlang, addTs, hadd, useOrig, huse, gen, hgen, pron, hpron, hm⟩ := h
    obtain rfl := Except.ok.inj hm
    exact ⟨hctx, hne, htranscript, hcont, ⟨v, hv, hmode, hid⟩,
      ⟨f, hf, hcontainer, hencoding, hsr⟩, hpos, hmodel, hlang, hadd, huse, hgen, hpron, rfl⟩
  · intro h
    obtain ⟨v, hv, hmode, hid⟩ := h.voice
    obtain ⟨f, hf, hcontainer, hencoding, hsr⟩ := h.outputFormat
    refine ⟨_, ⟨h.contextId, h.nonempty⟩, _, h.transcript, _, h.continue_, v, hv, _, hmode, _, hid,
      f, hf, _, hcontainer, _, hencoding, _, ⟨hsr, h.rate_pos⟩, _, h.modelId, _, h.language,
      _, h.addTimestamps, _, h.useOriginalTimestamps, _, h.generationConfig, _,
      h.pronunciationDictId, ?_⟩
    rw [← h.extra]
    rfl

theorem orNull_iff {α : Type} {mk : α → Json} {v : Json} :
    (∃ o : Option α, v = orNull (o.map mk)) ↔ v = .null ∨ ∃ a, v = mk a := by
  constructor
  · intro h
    obtain ⟨o, ho⟩ := h
    cases o with
    | none => exact Or.inl ho
    | some a => exact Or.inr ⟨a, ho⟩
  · intro h
    rcases h with hnull | ⟨a, ha⟩
    · exact ⟨none, hnull⟩
    · exact ⟨some a, ha⟩

theorem flag_iff {obj : Members} {key : String} :
    (∃ b, obj.getD key (.bool false) = .bool b) ↔
      obj.lookup key = none ∨ ∃ b, obj.lookup key = some (.bool b) := by
  unfold Members.getD
  cases obj.lookup key with
  | none => simp
  | some v => simp

/-- Some `m` is what the keys hold exactly when the object is a text frame. -/
theorem textFrame_iff {obj : Members} : TextFrame obj ↔ ∃ m, Reads obj m := by
  constructor
  · intro h
    obtain ⟨ctx, hctx, hne⟩ := h.contextId
    obtain ⟨transcript, htranscript⟩ := h.transcript
    obtain ⟨cont, hcont⟩ := h.continue_
    obtain ⟨v, hv, ⟨mode, hmode⟩, id, hid⟩ := h.voice
    obtain ⟨f, hf, ⟨container, hcontainer⟩, ⟨encoding, hencoding⟩, sr, hsr, hpos⟩ :=
      h.outputFormat
    obtain ⟨modelId, hmodel⟩ := orNull_iff.mpr (h.strings "model_id" (by simp))
    obtain ⟨language, hlang⟩ := orNull_iff.mpr (h.strings "language" (by simp))
    obtain ⟨pron, hpron⟩ := orNull_iff.mpr (h.strings "pronunciation_dict_id" (by simp))
    obtain ⟨gen, hgen⟩ := orNull_iff.mpr h.generationConfig
    obtain ⟨addTs, hadd⟩ := flag_iff.mpr (h.flags "add_timestamps" (by simp))
    obtain ⟨useOrig, huse⟩ := flag_iff.mpr (h.flags "use_original_timestamps" (by simp))
    exact ⟨{ contextId := ctx, transcript := transcript, continue_ := cont
             voice := ⟨mode, id⟩, outputFormat := ⟨container, encoding, sr⟩
             modelId := modelId, language := language, addTimestamps := addTs
             useOriginalTimestamps := useOrig, generationConfig := gen
             pronunciationDictId := pron
             extra := obj.filter fun kv => !knownKeys.contains kv.1 },
      ⟨hctx, hne, htranscript, hcont, ⟨v, hv, hmode, hid⟩, ⟨f, hf, hcontainer, hencoding, hsr⟩,
        hpos, hmodel, hlang, hadd, huse, hgen, hpron, rfl⟩⟩
  · intro h
    obtain ⟨m, h⟩ := h
    obtain ⟨v, hv, hmode, hid⟩ := h.voice
    obtain ⟨f, hf, hcontainer, hencoding, hsr⟩ := h.outputFormat
    refine ⟨⟨_, h.contextId, h.nonempty⟩, ⟨_, h.transcript⟩, ⟨_, h.continue_⟩,
      ⟨v, hv, ⟨_, hmode⟩, _, hid⟩, ⟨f, hf, ⟨_, hcontainer⟩, ⟨_, hencoding⟩, _, hsr, h.rate_pos⟩,
      ?_, orNull_iff.mp ⟨_, h.generationConfig⟩, ?_⟩
    · intro key hkey
      simp only [List.mem_cons, List.not_mem_nil, or_false] at hkey
      rcases hkey with rfl | rfl | rfl
      · exact orNull_iff.mp ⟨_, h.modelId⟩
      · exact orNull_iff.mp ⟨_, h.language⟩
      · exact orNull_iff.mp ⟨_, h.pronunciationDictId⟩
    · intro key hkey
      simp only [List.mem_cons, List.not_mem_nil, or_false] at hkey
      rcases hkey with rfl | rfl
      · exact flag_iff.mp ⟨_, h.addTimestamps⟩
      · exact flag_iff.mp ⟨_, h.useOriginalTimestamps⟩

/-! ## The printed form -/

theorem lookup_optionalMember {key k : String} {v : Option Json} :
    (optionalMember key v).lookup k = if k = key then v else none := by
  cases v with
  | none => simp [optionalMember]
  | some v =>
    rw [optionalMember, List.lookup_cons]
    by_cases h : k = key
    · rw [if_pos h, beq_iff_eq.mpr h]
    · rw [if_neg h, beq_eq_false_iff_ne.mpr h]
      rfl

/-- The known members are under known keys, and never under `cancel`. -/
theorem fields_keys (m : IncomingText) :
    ∀ kv ∈ m.fields, kv.1 ∈ knownKeys ∧ kv.1 ≠ "cancel" := by
  have hopt : ∀ (key : String) (v : Option Json), ∀ kv ∈ optionalMember key v, kv.1 = key := by
    intro key v kv hkv
    cases v with
    | none => exact absurd hkv List.not_mem_nil
    | some v => rw [List.mem_singleton.mp hkv]
  intro kv hkv
  simp only [IncomingText.fields, List.mem_append, List.mem_cons, List.not_mem_nil, or_false,
    or_assoc] at hkv
  rcases hkv with rfl | rfl | rfl | h | rfl | rfl | rfl | rfl | h | h | h
  all_goals first
    | rw [hopt _ _ kv h]; simp [knownKeys]
    | simp [knownKeys]

theorem lookup_eq_none_of_keys {obj : Members} {key : String} (h : ∀ kv ∈ obj, kv.1 ≠ key) :
    obj.lookup key = none := by
  rw [List.lookup_eq_none_iff]
  intro kv hkv
  exact bne_iff_ne.mpr fun he => h kv hkv he.symm

/-- Outside the known keys the printed object is the extra members. -/
theorem print_lookup_extra (m : IncomingText) {key : String} (h : key ∉ knownKeys) :
    m.print.lookup key = m.extra.lookup key := by
  have hnone : m.fields.lookup key = none :=
    lookup_eq_none_of_keys fun kv hkv he => h (he ▸ (fields_keys m kv hkv).1)
  rw [IncomingText.print, List.lookup_append, hnone, Option.none_or]

/-- Under a known key it is the known members. -/
theorem print_lookup_known {m : IncomingText} (hextra : ∀ kv ∈ m.extra, kv.1 ∉ knownKeys)
    {key : String} (h : key ∈ knownKeys) : m.print.lookup key = m.fields.lookup key := by
  have hnone : m.extra.lookup key = none :=
    lookup_eq_none_of_keys fun kv hkv he => hextra kv hkv (he ▸ h)
  rw [IncomingText.print, List.lookup_append, hnone, Option.or_none]

theorem getD_print_known {m : IncomingText} (hextra : ∀ kv ∈ m.extra, kv.1 ∉ knownKeys)
    {key : String} (h : key ∈ knownKeys) (default : Json) :
    m.print.getD key default = m.fields.getD key default := by
  unfold Members.getD
  rw [print_lookup_known hextra h]

theorem orNull_eq_getD (o : Option Json) : orNull o = o.getD .null := by
  cases o <;> rfl

/-- Every known member, looked up by its key. -/
theorem fields_lookup (m : IncomingText) :
    m.fields.lookup "context_id" = some (.str m.contextId) ∧
    m.fields.lookup "transcript" = some (.str m.transcript) ∧
    m.fields.lookup "continue" = some (.bool m.continue_) ∧
    m.fields.lookup "voice" =
      some (.obj [("mode", .str m.voice.mode), ("id", .str m.voice.id)]) ∧
    m.fields.lookup "output_format" = some (.obj [("container", .str m.outputFormat.container),
      ("encoding", .str m.outputFormat.encoding),
      ("sample_rate", .int m.outputFormat.sampleRate)]) ∧
    m.fields.lookup "model_id" = m.modelId.map .str ∧
    m.fields.lookup "language" = m.language.map .str ∧
    m.fields.lookup "add_timestamps" = some (.bool m.addTimestamps) ∧
    m.fields.lookup "use_original_timestamps" = some (.bool m.useOriginalTimestamps) ∧
    m.fields.lookup "generation_config" = m.generationConfig.map .obj ∧
    m.fields.lookup "pronunciation_dict_id" = m.pronunciationDictId.map .str := by
  simp [IncomingText.fields, List.lookup_append, List.lookup_cons, lookup_optionalMember]

/-- The printed object reads back as the frame. -/
theorem print_reads {m : IncomingText} (hctx : m.contextId ≠ "")
    (hrate : 0 < m.outputFormat.sampleRate) (hextra : ∀ kv ∈ m.extra, kv.1 ∉ knownKeys) :
    Reads m.print m := by
  have hread : ∀ key ∈ knownKeys, ∀ (d : Json) (v : Option Json), m.fields.lookup key = v →
      m.print.getD key d = v.getD d := by
    intro key hkey d v hv
    rw [getD_print_known hextra hkey, Members.getD, hv]
  obtain ⟨hc, ht, hcont, hv, hf, hmodel, hlang, hadd, huse, hgen, hpron⟩ := fields_lookup m
  exact {
    contextId := hread _ (by simp [knownKeys]) _ _ hc
    nonempty := hctx
    transcript := hread _ (by simp [knownKeys]) _ _ ht
    continue_ := hread _ (by simp [knownKeys]) _ _ hcont
    voice := ⟨_, hread _ (by simp [knownKeys]) _ _ hv, by simp [Members.get, Members.getD],
      by simp [Members.get, Members.getD, List.lookup_cons]⟩
    outputFormat := ⟨_, hread _ (by simp [knownKeys]) _ _ hf, by simp [Members.get, Members.getD],
      by simp [Members.get, Members.getD, List.lookup_cons],
      by simp [Members.get, Members.getD, List.lookup_cons]⟩
    rate_pos := hrate
    modelId := by rw [orNull_eq_getD]; exact hread _ (by simp [knownKeys]) _ _ hmodel
    language := by rw [orNull_eq_getD]; exact hread _ (by simp [knownKeys]) _ _ hlang
    addTimestamps := hread _ (by simp [knownKeys]) _ _ hadd
    useOriginalTimestamps := hread _ (by simp [knownKeys]) _ _ huse
    generationConfig := by rw [orNull_eq_getD]; exact hread _ (by simp [knownKeys]) _ _ hgen
    pronunciationDictId := by rw [orNull_eq_getD]; exact hread _ (by simp [knownKeys]) _ _ hpron
    extra := by
      have hknown : m.fields.filter (fun kv => !knownKeys.contains kv.1) = [] := by
        rw [List.filter_eq_nil_iff]
        intro kv hkv
        simpa using (fields_keys m kv hkv).1
      have hall : m.extra.filter (fun kv => !knownKeys.contains kv.1) = m.extra := by
        rw [List.filter_eq_self]
        intro kv hkv
        simpa using hextra kv hkv
      rw [IncomingText.print, List.filter_append, hknown, hall, List.nil_append] }

/-- A filter that keeps a key keeps what is found under it. -/
theorem lookup_filter {obj : Members} (keep : String → Bool) {key : String}
    (h : keep key = true) : (obj.filter fun kv => keep kv.1).lookup key = obj.lookup key := by
  induction obj with
  | nil => rfl
  | cons kv obj ih =>
    rw [List.filter_cons, List.lookup_cons]
    by_cases he : key = kv.1
    · rw [if_pos (he ▸ h), List.lookup_cons]
      simp [he]
    · have hb : (key == kv.1) = false := beq_eq_false_iff_ne.mpr he
      rw [hb]
      split
      next => rw [List.lookup_cons, hb]; exact ih
      next => exact ih

/-- Two objects that read the same value under a key, not `None`, hold it both. -/
theorem lookup_eq_of_get {p o : Members} {key : String} {v : Json} (hp : p.get key = v)
    (ho : o.get key = v) (hne : v ≠ .null) : p.lookup key = o.lookup key := by
  have hthere : ∀ obj : Members, obj.get key = v → obj.lookup key = some v := by
    intro obj h
    unfold Members.get Members.getD at h
    cases hl : obj.lookup key with
    | none => rw [hl] at h; exact absurd h.symm hne
    | some w => rw [hl] at h; exact congrArg some h
  rw [hthere p hp, hthere o ho]

/-- What is read out of an object prints as the same frame. -/
theorem Reads.same {obj : Members} {m : IncomingText} (h : Reads obj m)
    (hcancel : obj.get "cancel" ≠ .bool true) : SameFrame m.print obj := by
  have hextra : ∀ kv ∈ m.extra, kv.1 ∉ knownKeys := by
    intro kv hkv
    rw [h.extra, List.mem_filter] at hkv
    simpa using hkv.2
  have hback := print_reads h.nonempty h.rate_pos hextra
  obtain ⟨v, hv, hmode, hid⟩ := h.voice
  obtain ⟨v', hv', hmode', hid'⟩ := hback.voice
  obtain ⟨f, hf, hcontainer, hencoding, hsr⟩ := h.outputFormat
  obtain ⟨f', hf', hcontainer', hencoding', hsr'⟩ := hback.outputFormat
  constructor
  · intro key hkey
    simp only [List.mem_cons, List.not_mem_nil, or_false] at hkey
    rcases hkey with rfl | rfl | rfl
    · exact lookup_eq_of_get hback.contextId h.contextId (by simp)
    · exact lookup_eq_of_get hback.transcript h.transcript (by simp)
    · exact lookup_eq_of_get hback.continue_ h.continue_ (by simp)
  · refine ⟨v', v, hv', hv, ?_⟩
    intro key hkey
    simp only [List.mem_cons, List.not_mem_nil, or_false] at hkey
    rcases hkey with rfl | rfl
    · exact lookup_eq_of_get hmode' hmode (by simp)
    · exact lookup_eq_of_get hid' hid (by simp)
  · refine ⟨f', f, hf', hf, ?_⟩
    intro key hkey
    simp only [List.mem_cons, List.not_mem_nil, or_false] at hkey
    rcases hkey with rfl | rfl | rfl
    · exact lookup_eq_of_get hcontainer' hcontainer (by simp)
    · exact lookup_eq_of_get hencoding' hencoding (by simp)
    · exact lookup_eq_of_get hsr' hsr (by simp)
  · intro key hkey
    simp only [List.mem_cons, List.not_mem_nil, or_false] at hkey
    rcases hkey with rfl | rfl | rfl | rfl
    · rw [hback.modelId, h.modelId]
    · rw [hback.language, h.language]
    · rw [hback.generationConfig, h.generationConfig]
    · rw [hback.pronunciationDictId, h.pronunciationDictId]
  · intro key hkey
    simp only [List.mem_cons, List.not_mem_nil, or_false] at hkey
    rcases hkey with rfl | rfl
    · rw [hback.addTimestamps, h.addTimestamps]
    · rw [hback.useOriginalTimestamps, h.useOriginalTimestamps]
  · refine ⟨?_, hcancel⟩
    rw [print_lookup_known hextra (by simp [knownKeys])]
    exact lookup_eq_none_of_keys fun kv hkv => (fields_keys m kv hkv).2
  · intro key hkey
    rw [print_lookup_extra m hkey, h.extra]
    exact lookup_filter (fun k => !knownKeys.contains k) (by simpa using hkey)

/-! ## What `decode` returns -/

/-- Which message an object decodes to. -/
theorem decodeObject_cases (obj : Members) (raw : String) :
    (∃ c, CancelFrame obj c ∧ decodeObject obj raw = .cancel ⟨c⟩) ∨
    ((∀ c, ¬ CancelFrame obj c) ∧ obj.get "cancel" ≠ .bool true ∧
      ∃ m, Reads obj m ∧ decodeObject obj raw = .text m) ∨
    ((∀ c, ¬ CancelFrame obj c) ∧ ¬ TextFrame obj ∧
      ∃ e, decodeObject obj raw = .parseError e) := by
  unfold decodeObject
  split
  next hcancel =>
    cases hctx : asNonEmptyStr (obj.get "context_id") "cancel message missing context_id" with
    | ok c =>
      obtain ⟨hc, hne⟩ := asNonEmptyStr_ok_iff.mp hctx
      exact Or.inl ⟨c, ⟨hcancel, hc, hne⟩, rfl⟩
    | error reason =>
      -- without a context id it is no frame of either kind
      have hno : ∀ c, obj.get "context_id" = .str c → c ≠ "" → False := by
        intro c hc hne
        rw [asNonEmptyStr_ok_iff.mpr ⟨hc, hne⟩] at hctx
        exact nomatch hctx
      refine Or.inr (Or.inr ⟨fun c hc => hno c hc.contextId hc.nonempty, ?_, _, rfl⟩)
      intro htext
      obtain ⟨c, hc, hne⟩ := htext.contextId
      exact hno c hc hne
  next hcancel =>
    have hnot : obj.get "cancel" ≠ .bool true := hcancel
    have hno : ∀ c, ¬ CancelFrame obj c := fun c hc => hnot hc.cancel
    unfold decodeText
    cases hfields : decodeFields obj with
    | ok m => exact Or.inr (Or.inl ⟨hno, hnot, m, decodeFields_ok_iff.mp hfields, rfl⟩)
    | error reason =>
      refine Or.inr (Or.inr ⟨hno, ?_, _, rfl⟩)
      intro htext
      obtain ⟨m, hm⟩ := textFrame_iff.mp htext
      rw [decodeFields_ok_iff.mpr hm] at hfields
      exact nomatch hfields

/-- What decodes to a text message holds it under its keys. -/
theorem decodeObject_text {obj : Members} {raw : String} {m : IncomingText}
    (hm : decodeObject obj raw = .text m) : Reads obj m ∧ obj.get "cancel" ≠ .bool true := by
  rcases decodeObject_cases obj raw with ⟨d, -, h⟩ | ⟨-, hcancel, m', hm', h⟩ | ⟨-, -, e, h⟩
  · rw [h] at hm
    exact nomatch hm
  · rw [h] at hm
    obtain rfl : m' = m := IncomingMessage.text.inj hm
    exact ⟨hm', hcancel⟩
  · rw [h] at hm
    exact nomatch hm

/-- A printed text message decodes to itself. -/
theorem decodeObject_print {m : IncomingText} (hctx : m.contextId ≠ "")
    (hrate : 0 < m.outputFormat.sampleRate) (hextra : ∀ kv ∈ m.extra, kv.1 ∉ knownKeys)
    (raw : String) : decodeObject m.print raw = .text m := by
  have hreads := print_reads hctx hrate hextra
  have hcancel : m.print.get "cancel" = .null := by
    rw [Members.get, getD_print_known hextra (by simp [knownKeys]), Members.getD,
      lookup_eq_none_of_keys fun kv hkv => (fields_keys m kv hkv).2]
    rfl
  rw [decodeObject, hcancel]
  show decodeText m.print raw = .text m
  rw [decodeText, decodeFields_ok_iff.mpr hreads]

/-- **The decoder's grammar and round trip**: a cancel frame decodes to its cancel, any other
text frame to a text message, and everything else to a parse error; a printed text message
decodes to itself, and what decodes to a message prints back as the same frame. -/
theorem decode_grammar (obj : Members) (raw : String) :
    let decoded := decode (fun _ => .value (.obj obj)) raw
    (∀ c, decoded = .ok (.cancel ⟨c⟩) ↔ CancelFrame obj c) ∧
    ((∃ m, decoded = .ok (.text m)) ↔ (∀ c, ¬ CancelFrame obj c) ∧ TextFrame obj) ∧
    ((∃ e, decoded = .ok (.parseError e)) ↔ (∀ c, ¬ CancelFrame obj c) ∧ ¬ TextFrame obj) ∧
    (∀ m : IncomingText, m.contextId ≠ "" → 0 < m.outputFormat.sampleRate →
      (∀ kv ∈ m.extra, kv.1 ∉ knownKeys) →
      decode (fun _ => .value (.obj m.print)) raw = .ok (.text m)) ∧
    ∀ m, decoded = .ok (.text m) → SameFrame m.print obj := by
  intro decoded
  have hdecoded : decoded = .ok (decodeObject obj raw) := rfl
  rw [hdecoded]
  simp only [Except.ok.injEq]
  refine ⟨?_, ?_, ?_, ?_, ?_⟩
  · intro c
    rcases decodeObject_cases obj raw with ⟨d, hd, h⟩ | ⟨hno, -, m, -, h⟩ | ⟨hno, -, e, h⟩
    · rw [h]
      simp only [IncomingMessage.cancel.injEq, IncomingCancel.mk.injEq]
      constructor
      · intro he
        exact he ▸ hd
      · intro hc
        exact Json.str.inj (hd.contextId.symm.trans hc.contextId)
    · rw [h]
      exact iff_of_false (by simp) (hno c)
    · rw [h]
      exact iff_of_false (by simp) (hno c)
  · rcases decodeObject_cases obj raw with ⟨d, hd, h⟩ | ⟨hno, -, m, hm, h⟩ | ⟨-, hno, e, h⟩
    · rw [h]
      exact iff_of_false (by simp) (fun hc => hc.1 d hd)
    · rw [h]
      exact iff_of_true ⟨m, rfl⟩ ⟨hno, textFrame_iff.mpr ⟨m, hm⟩⟩
    · rw [h]
      exact iff_of_false (by simp) (fun hc => hno hc.2)
  · rcases decodeObject_cases obj raw with ⟨d, hd, h⟩ | ⟨-, -, m, hm, h⟩ | ⟨hno, hnot, e, h⟩
    · rw [h]
      exact iff_of_false (by simp) (fun hc => hc.1 d hd)
    · rw [h]
      exact iff_of_false (by simp) (fun hc => hc.2 (textFrame_iff.mpr ⟨m, hm⟩))
    · rw [h]
      exact iff_of_true ⟨e, rfl⟩ ⟨hno, hnot⟩
  · intro m hctx hrate hextra
    exact congrArg Except.ok (decodeObject_print hctx hrate hextra raw)
  · intro m hm
    obtain ⟨hreads, hcancel⟩ := decodeObject_text hm
    exact hreads.same hcancel

end SupertonicServer.Wire
