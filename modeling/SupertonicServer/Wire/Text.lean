import SupertonicServer.Wire.Base64
import SupertonicServer.Wire.Grammar
import SupertonicServer.Wire.JsonRange

/-!
# Frames on the wire

What goes over the socket: the texts of the server's frames and of the client's messages, with
the reader at the other end. The client's side is the one `wire.py` documents: it looks at
`type`, and reads base64 PCM out of `data` of a chunk.

Every frame reads back at the client as itself (`readFrame_text`), in printable ASCII. In the
other direction a message is received from some text exactly when it is received from its
printed form (`received_iff`); texts with the escape of a lone surrogate are left out.
-/

namespace SupertonicServer.Wire

/-! ## Texts -/

/-- What the encoders return: `json.dumps(payload)`. -/
def ServerFrame.text (f : ServerFrame) : String := String.ofList (dumps (.obj f.payload))

/-- The payload of a `timestamps` frame; the starts are float literals. -/
def timestampsPayload (contextId : String) (words starts : List String) : Members :=
  [("type", .str "timestamps"), ("context_id", .str contextId),
    ("word_timestamps",
      .obj [("words", .arr (words.map .str)), ("start", .arr (starts.map .float))])]

/-- `encode_timestamps`. -/
def encodeTimestamps (contextId : String) (words starts : List String) : Except String String :=
  if words.length ≠ starts.length then .error "words and starts must have equal length"
  else .ok (String.ofList (dumps (.obj (timestampsPayload contextId words starts))))

/-- A text frame as the client sends it. -/
def IncomingText.text (m : IncomingText) : String := String.ofList (dumps (.obj m.print))

/-- A cancel frame as the client sends it. -/
def IncomingCancel.text (m : IncomingCancel) : String :=
  String.ofList (dumps (.obj [("context_id", .str m.contextId), ("cancel", .bool true)]))

/-! ## The client's reader -/

/-- The frame in an object, by its `type`. -/
def frameOf (obj : Members) : Option ServerFrame :=
  match obj.get "type", obj.get "context_id" with
  | .str "chunk", .str c =>
    match obj.get "data" with
    | .str data =>
      match b64decode data.toList with
      | .ok pcm => some (.chunk c pcm)
      | .error _ => none
    | _ => none
  | .str "done", .str c => some (.done c)
  | .str "error", .str c =>
    match obj.get "error" with
    | .str message => some (.error (some c) message)
    | _ => none
  | .str "error", .null =>
    match obj.get "error" with
    | .str message => some (.error none message)
    | _ => none
  | _, _ => none

/-- The frame that a text stands for. -/
def readFrame (depth : Nat) (text : String) : Option ServerFrame :=
  match readJson depth text.toList with
  | some (.obj obj) => frameOf obj
  | _ => none

theorem payload_within (f : ServerFrame) (depth : Nat) :
    (Json.obj f.payload).Within (depth + 1) := by
  cases f with
  | chunk c pcm =>
    refine .obj (by simp [ServerFrame.payload]) ?_
    simp only [ServerFrame.payload, List.forall_mem_cons, List.not_mem_nil, false_imp_iff,
      implies_true, and_true]
    exact ⟨.str _ _, .str _ _, .str _ _⟩
  | done c =>
    refine .obj (by simp [ServerFrame.payload]) ?_
    simp only [ServerFrame.payload, List.forall_mem_cons, List.not_mem_nil, false_imp_iff,
      implies_true, and_true]
    exact ⟨.str _ _, .str _ _⟩
  | error c msg =>
    cases c with
    | none =>
      refine .obj (by simp [ServerFrame.payload]) ?_
      simp only [ServerFrame.payload, List.forall_mem_cons, List.not_mem_nil, false_imp_iff,
        implies_true, and_true]
      exact ⟨.str _ _, .str _ _⟩
    | some c =>
      refine .obj (by simp [ServerFrame.payload]) ?_
      simp only [ServerFrame.payload, List.forall_mem_cons, List.not_mem_nil, false_imp_iff,
        implies_true, and_true]
      exact ⟨.str _ _, .str _ _, .str _ _⟩

theorem frameOf_payload (f : ServerFrame) : frameOf f.payload = some f := by
  cases f with
  | chunk c pcm =>
    have hdata : b64decode (String.ofList (b64encode pcm)).toList = .ok pcm := by
      rw [String.toList_ofList]
      exact b64decode_b64encode pcm
    show (match b64decode (String.ofList (b64encode pcm)).toList with
      | .ok pcm => some (ServerFrame.chunk c pcm)
      | .error _ => none) = _
    rw [hdata]
  | done c => rfl
  | error c msg =>
    cases c with
    | none => rfl
    | some c => rfl

theorem readFrame_eq (f : ServerFrame) (depth : Nat) :
    readFrame (depth + 1) f.text = some f := by
  rw [readFrame, ServerFrame.text, String.toList_ofList, readJson_dumps (payload_within f depth)]
  exact frameOf_payload f

/-- **Every frame reads back at the client as itself**, and its text is one line of printable
ASCII, whatever the context id, the error message and the PCM bytes. -/
theorem readFrame_text (f : ServerFrame) (depth : Nat) :
    readFrame (depth + 1) f.text = some f ∧ ∀ c ∈ f.text.toList, Printable c := by
  refine ⟨readFrame_eq f depth, ?_⟩
  rw [ServerFrame.text, String.toList_ofList]
  exact dumps_printable (payload_within f depth)

/-! ## Word timestamps -/

/-- The words and starts in an object. -/
def timestampsOf (obj : Members) : Option (String × List (Json × Json)) :=
  match obj.get "type", obj.get "context_id", obj.get "word_timestamps" with
  | .str "timestamps", .str c, .obj stamps =>
    match Members.get stamps "words", Members.get stamps "start" with
    | .arr words, .arr starts => some (c, words.zip starts)
    | _, _ => none
  | _, _, _ => none

/-- **A `timestamps` frame is made exactly for lists of one length**, and then the client pairs
every word with its start. -/
theorem encodeTimestamps_reads (contextId : String) (words starts : List String)
    (hstarts : ∀ s ∈ starts, FloatLiteral s.toList) (depth : Nat) :
    (words.length = starts.length ↔ ∃ text, encodeTimestamps contextId words starts = .ok text) ∧
    ∀ text, encodeTimestamps contextId words starts = .ok text →
      ∃ obj, readJson (depth + 3) text.toList = some (.obj obj) ∧
        timestampsOf obj =
          some (contextId, (words.zip starts).map fun p => (.str p.1, .float p.2)) := by
  have hwithin : (Json.obj (timestampsPayload contextId words starts)).Within (depth + 3) := by
    refine .obj (by simp [timestampsPayload]) ?_
    simp only [timestampsPayload, List.forall_mem_cons, List.not_mem_nil, false_imp_iff,
      implies_true, and_true]
    refine ⟨.str _ _, .str _ _, .obj (by simp) ?_⟩
    simp only [List.forall_mem_cons, List.not_mem_nil, false_imp_iff, implies_true, and_true]
    refine ⟨.arr ?_, .arr ?_⟩
    · intro v hv
      obtain ⟨w, -, rfl⟩ := List.mem_map.mp hv
      exact .str _ _
    · intro v hv
      obtain ⟨x, hx, rfl⟩ := List.mem_map.mp hv
      exact .float _ (hstarts x hx)
  unfold encodeTimestamps
  by_cases hlen : words.length = starts.length
  · rw [if_neg (by simpa using hlen)]
    refine ⟨iff_of_true hlen ⟨_, rfl⟩, ?_⟩
    intro text htext
    obtain rfl := Except.ok.inj htext
    refine ⟨_, by rw [String.toList_ofList]; exact readJson_dumps hwithin, ?_⟩
    show some (contextId, (words.map Json.str).zip (starts.map Json.float)) = _
    rw [List.zip_map]
    rfl
  · rw [if_pos hlen]
    exact ⟨iff_of_false hlen (by simp), by simp⟩

/-- Two words. -/
theorem encodeTimestamps_two_words : ∃ text obj,
    encodeTimestamps "c1" ["hello", "there"] ["0.0", "0.25"] = .ok text ∧
    readJson 3 text.toList = some (.obj obj) ∧
    timestampsOf obj =
      some ("c1", [(.str "hello", .float "0.0"), (.str "there", .float "0.25")]) := by
  have hstarts : ∀ s ∈ ["0.0", "0.25"], FloatLiteral s.toList := by
    have hfloat : ∀ ds, Digits ds → FloatLiteral ('0' :: '.' :: ds) := by
      intro ds hds
      have hzero : Digits ['0'] := ⟨by simp, Lib.forall_mem_of_all (by decide)⟩
      exact Or.inl ⟨[], ['0'], '.' :: ds, [], Or.inl rfl, ⟨hzero, fun _ => rfl⟩,
        Or.inr ⟨ds, hds, rfl⟩, Or.inl rfl, Or.inl (by simp), by simp⟩
    intro s hs
    simp only [List.mem_cons, List.not_mem_nil, or_false] at hs
    rcases hs with rfl | rfl
    · exact hfloat ['0'] ⟨by simp, Lib.forall_mem_of_all (by decide)⟩
    · exact hfloat ['2', '5'] ⟨by simp, Lib.forall_mem_of_all (by decide)⟩
  obtain ⟨hiff, hreads⟩ :=
    encodeTimestamps_reads "c1" ["hello", "there"] ["0.0", "0.25"] hstarts 0
  obtain ⟨text, htext⟩ := hiff.mp rfl
  obtain ⟨obj, hobj, hstamps⟩ := hreads text htext
  exact ⟨text, obj, htext, hobj, hstamps⟩

/-! ## Messages -/

/-- `json.loads` returns the values that texts stand for, to a depth of `depth`, and on a text
whose surrogates are in pairs nothing else. A text with the escape of a lone surrogate is outside
this: `json.loads` reads it, into a value that is no `Json`. -/
structure LoadsReads (depth : Nat) (loads : String → LoadsResult) : Prop where
  value : ∀ text v, readJson depth text.toList = some v → loads text = .value v
  only : ∀ text v, Paired text.toList → loads text = .value v →
    readJson depth text.toList = some v

/-- The messages that have a printed form: what the decoder checks, no extra member under a
known key, and values that JSON can carry. -/
structure IncomingText.Sendable (depth : Nat) (m : IncomingText) : Prop where
  contextId : m.contextId ≠ ""
  rate : 0 < m.outputFormat.sampleRate
  extra : ∀ kv ∈ m.extra, kv.1 ∉ knownKeys
  within : (Json.obj m.print).Within depth

theorem IncomingText.Sendable.paired {depth : Nat} {m : IncomingText} (h : m.Sendable depth) :
    Paired m.text.toList := by
  rw [IncomingText.text, String.toList_ofList]
  exact dumps_paired h.within

theorem mem_of_get {obj : Members} {key : String} {v : Json} (h : obj.get key = v)
    (hv : v ≠ .null) : ∃ k, (k, v) ∈ obj := by
  unfold Members.get Members.getD at h
  cases hl : obj.lookup key with
  | none =>
    rw [hl] at h
    exact absurd h.symm hv
  | some w =>
    rw [hl] at h
    obtain rfl : w = v := h
    obtain ⟨l₁, l₂, hsplit, -⟩ := List.lookup_eq_some_iff.mp hl
    exact ⟨key, by rw [hsplit]; simp⟩

/-- The members of an object are values of one depth less. -/
theorem Json.Within.members {depth : Nat} {obj : Members} (h : (Json.obj obj).Within depth) :
    ∃ d, depth = d + 1 ∧ (obj.map Prod.fst).Nodup ∧ ∀ kv ∈ obj, kv.2.Within d := by
  cases h with
  | obj keys h => exact ⟨_, rfl, keys, h⟩

/-- What an object holds under a key. -/
theorem Json.Within.get {d : Nat} {obj : Members} (h : ∀ kv ∈ obj, kv.2.Within d) {key : String}
    {v : Json} (hget : obj.get key = v) (hv : v ≠ .null) : v.Within d := by
  obtain ⟨k, hmem⟩ := mem_of_get hget hv
  exact h _ hmem

theorem Json.Within.int_short {d : Nat} {n : Int} (h : (Json.int n).Within d) : ShortInt n := by
  cases h with
  | int _ h => exact h

/-- A member that may be missing nests as deep as its value. -/
theorem within_optionalMember {d : Nat} {key : String} {v : Option Json}
    (h : ∀ w, v = some w → w.Within d) : ∀ kv ∈ optionalMember key v, kv.2.Within d := by
  intro kv hkv
  cases v with
  | none => exact absurd hkv List.not_mem_nil
  | some w =>
    rw [List.mem_singleton.mp hkv]
    exact h w rfl

theorem optionalMember_keys (key : String) (v : Option Json) :
    List.Sublist ((optionalMember key v).map Prod.fst) [key] := by
  cases v with
  | none => exact List.nil_sublist _
  | some v => exact List.Sublist.refl _

theorem fields_nodup (m : IncomingText) : (m.fields.map Prod.fst).Nodup := by
  have hsub : List.Sublist (m.fields.map Prod.fst)
      (["transcript", "continue", "context_id"] ++ ["model_id"] ++
        ["voice", "output_format", "add_timestamps", "use_original_timestamps"] ++ ["language"] ++
        ["generation_config"] ++ ["pronunciation_dict_id"]) := by
    simp only [IncomingText.fields, List.map_append]
    refine ((((List.Sublist.refl _).append ?_).append (List.Sublist.refl _)).append ?_).append ?_
      |>.append ?_
    · exact optionalMember_keys _ _
    · exact optionalMember_keys _ _
    · exact optionalMember_keys _ _
    · exact optionalMember_keys _ _
  exact hsub.nodup (by decide)

/-- What is read out of a value prints as a value. -/
theorem Reads.print_within {obj : Members} {m : IncomingText} {depth : Nat} (h : Reads obj m)
    (hobj : (Json.obj obj).Within depth) : (Json.obj m.print).Within depth := by
  obtain ⟨d, rfl, hkeys, hmembers⟩ := hobj.members
  have hextra : ∀ kv ∈ m.extra, kv ∈ obj ∧ kv.1 ∉ knownKeys := by
    intro kv hkv
    rw [h.extra, List.mem_filter] at hkv
    exact ⟨hkv.1, by simpa using hkv.2⟩
  -- `voice` and `output_format` are objects, so the depth leaves room for them
  obtain ⟨v, hv, -, -⟩ := h.voice
  obtain ⟨f, hf, -, -, hsr⟩ := h.outputFormat
  obtain ⟨e, rfl, -, -⟩ := (Json.Within.get hmembers hv (by simp)).members
  obtain ⟨e', he', -, hfmembers⟩ := (Json.Within.get hmembers hf (by simp)).members
  have hrate : ShortInt m.outputFormat.sampleRate :=
    (Json.Within.get hfmembers hsr (by simp)).int_short
  have hstr : ∀ (s : Option String) (w : Json), s.map Json.str = some w → w.Within (e + 1) := by
    intro s w hw
    obtain ⟨t, -, rfl⟩ := Option.map_eq_some_iff.mp hw
    exact .str _ _
  have hgen : ∀ w, m.generationConfig.map Json.obj = some w → w.Within (e + 1) := by
    intro w hw
    obtain ⟨g, hg, rfl⟩ := Option.map_eq_some_iff.mp hw
    have hget := h.generationConfig
    rw [hg] at hget
    exact Json.Within.get hmembers hget (by simp)
  refine .obj ?_ ?_
  · rw [IncomingText.print, List.map_append, List.nodup_append]
    refine ⟨fields_nodup m, ?_, ?_⟩
    · rw [h.extra]
      exact (List.filter_sublist.map Prod.fst).nodup hkeys
    · intro a ha b hb he
      obtain ⟨kv, hkv, rfl⟩ := List.mem_map.mp ha
      obtain ⟨kw, hkw, rfl⟩ := List.mem_map.mp hb
      exact (hextra kw hkw).2 (he ▸ (fields_keys m kv hkv).1)
  · intro kv hkv
    rw [IncomingText.print, List.mem_append] at hkv
    rcases hkv with hkv | hkv
    · simp only [IncomingText.fields, List.mem_append, List.mem_cons, List.not_mem_nil, or_false,
        or_assoc] at hkv
      rcases hkv with rfl | rfl | rfl | hkv | rfl | rfl | rfl | rfl | hkv | hkv | hkv
      · exact .str _ _
      · exact .bool _ _
      · exact .str _ _
      · exact within_optionalMember (hstr _) kv hkv
      · refine .obj (by simp) ?_
        simp only [List.forall_mem_cons, List.not_mem_nil, false_imp_iff, implies_true, and_true]
        exact ⟨.str _ _, .str _ _⟩
      · refine .obj (by simp) ?_
        simp only [List.forall_mem_cons, List.not_mem_nil, false_imp_iff, implies_true, and_true]
        exact ⟨.str _ _, .str _ _, .int _ hrate⟩
      · exact .bool _ _
      · exact .bool _ _
      · exact within_optionalMember (hstr _) kv hkv
      · exact within_optionalMember hgen kv hkv
      · exact within_optionalMember (hstr _) kv hkv
    · exact hmembers kv (hextra kv hkv).1

/-- A sendable message is decoded from its printed form. -/
theorem decode_text {depth : Nat} {loads : String → LoadsResult} (hloads : LoadsReads depth loads)
    {m : IncomingText} (h : m.Sendable depth) : decode loads m.text = .ok (.text m) := by
  have hvalue : loads m.text = .value (.obj m.print) := by
    apply hloads.value
    rw [IncomingText.text, String.toList_ofList]
    exact readJson_dumps h.within
  rw [decode, hvalue]
  exact congrArg Except.ok (decodeObject_print h.contextId h.rate h.extra m.text)

theorem decode_cancelText {depth : Nat} {loads : String → LoadsResult}
    (hloads : LoadsReads (depth + 1) loads) {m : IncomingCancel} (h : m.contextId ≠ "") :
    decode loads m.text = .ok (.cancel m) := by
  have hwithin : (Json.obj [("context_id", .str m.contextId), ("cancel", .bool true)]).Within
      (depth + 1) := by
    refine .obj (by simp) ?_
    simp only [List.forall_mem_cons, List.not_mem_nil, false_imp_iff, implies_true, and_true]
    exact ⟨.str _ _, .bool _ _⟩
  have hvalue : loads m.text =
      .value (.obj [("context_id", .str m.contextId), ("cancel", .bool true)]) := by
    apply hloads.value
    rw [IncomingCancel.text, String.toList_ofList]
    exact readJson_dumps hwithin
  have hctx : asNonEmptyStr (.str m.contextId) "cancel message missing context_id" =
      .ok m.contextId := by
    rw [asNonEmptyStr, if_neg h]
  have hcancel : Members.get [("context_id", .str m.contextId), ("cancel", .bool true)] "cancel" =
      .bool true := rfl
  have hid : Members.get [("context_id", .str m.contextId), ("cancel", .bool true)]
      "context_id" = .str m.contextId := rfl
  simp only [decode, hvalue, decodeObject, hcancel, hid, hctx]

/-- What decodes to a message was an object. -/
theorem object_of_decode {loads : String → LoadsResult} {raw : String} {msg : IncomingMessage}
    (h : decode loads raw = .ok msg) (hmsg : ∀ e, msg ≠ .parseError e) :
    ∃ obj, loads raw = .value (.obj obj) ∧ decodeObject obj raw = msg := by
  unfold decode at h
  split at h
  next => exact absurd (Except.ok.inj h).symm (hmsg _)
  next => exact absurd h (by simp)
  next => exact absurd h (by simp)
  next obj hvalue => exact ⟨obj, hvalue, Except.ok.inj h⟩
  next => exact absurd (Except.ok.inj h).symm (hmsg _)

/-- **The messages the server can receive**: a text message is decoded from some text without a
lone surrogate exactly when it is sendable, a cancel from some text exactly when it names a
context, and then each is decoded from its own printed form. -/
theorem received_iff {depth : Nat} {loads : String → LoadsResult}
    (hloads : LoadsReads (depth + 1) loads) :
    (∀ m : IncomingText,
      ((∃ raw, Paired raw.toList ∧ decode loads raw = .ok (.text m)) ↔
        m.Sendable (depth + 1)) ∧
      (m.Sendable (depth + 1) → decode loads m.text = .ok (.text m))) ∧
    ∀ m : IncomingCancel,
      ((∃ raw, decode loads raw = .ok (.cancel m)) ↔ m.contextId ≠ "") ∧
      (m.contextId ≠ "" → decode loads m.text = .ok (.cancel m)) := by
  constructor
  · intro m
    refine ⟨⟨?_, fun h => ⟨m.text, h.paired, decode_text hloads h⟩⟩, decode_text hloads⟩
    intro h
    obtain ⟨raw, hpaired, hraw⟩ := h
    obtain ⟨obj, hvalue, hobj⟩ := object_of_decode hraw (by simp)
    obtain ⟨hreads, -⟩ := decodeObject_text hobj
    refine ⟨hreads.nonempty, hreads.rate_pos, ?_,
      hreads.print_within (readJson_within (hloads.only _ _ hpaired hvalue))⟩
    intro kv hkv
    rw [hreads.extra, List.mem_filter] at hkv
    simpa using hkv.2
  · intro m
    refine ⟨⟨?_, fun h => ⟨m.text, decode_cancelText hloads h⟩⟩, decode_cancelText hloads⟩
    intro h
    obtain ⟨raw, hraw⟩ := h
    obtain ⟨obj, -, hobj⟩ := object_of_decode hraw (by simp)
    rcases decodeObject_cases obj raw with ⟨c, hc, h⟩ | ⟨-, -, m', -, h⟩ | ⟨-, -, e, h⟩
    · rw [h] at hobj
      rw [← IncomingMessage.cancel.inj hobj]
      exact hc.nonempty
    · rw [h] at hobj
      exact absurd hobj (by simp)
    · rw [h] at hobj
      exact absurd hobj (by simp)

/-- `json.loads` that has only one complaint. -/
def readerLoads (depth : Nat) (text : String) : LoadsResult :=
  match readJson depth text.toList with
  | some v => .value v
  | none => .jsonDecodeError "Expecting value"

theorem readerLoads_reads (depth : Nat) : LoadsReads depth (readerLoads depth) := by
  constructor
  · intro text v h
    unfold readerLoads
    rw [h]
  · intro text v _ h
    unfold readerLoads at h
    split at h
    next w hw =>
      rw [hw, LoadsResult.value.inj h]
    next => exact nomatch h

/-- A message with an extra member comes back, and one without a context id never arrives. -/
theorem received_hello :
    let hello : IncomingText :=
      { contextId := "c\n1", transcript := "नमस्ते। \"hi\"", continue_ := true
        voice := ⟨"id", "F1"⟩, outputFormat := ⟨"raw", "pcm_s16le", 24000⟩
        extra := [("x", .arr [.null, .int (-3)])] }
    decode (readerLoads 4) hello.text = .ok (.text hello) ∧
      ∀ raw, decode (readerLoads 4) raw ≠ .ok (.cancel ⟨""⟩) := by
  intro hello
  obtain ⟨htext, hcancel⟩ := received_iff (readerLoads_reads 4)
  constructor
  · refine (htext hello).2 ⟨by simp [hello], by decide, by simp [hello, knownKeys], ?_⟩
    refine .obj (by simp [hello, IncomingText.print, IncomingText.fields, optionalMember]) ?_
    simp only [hello, IncomingText.print, IncomingText.fields, optionalMember, Option.map_none,
      List.nil_append, List.append_nil, List.cons_append, List.forall_mem_cons, List.not_mem_nil,
      false_imp_iff, implies_true, and_true]
    have hshort : ShortInt 24000 ∧ ShortInt (-3) := by
      unfold ShortInt
      decide
    refine ⟨.str _ _, .bool _ _, .str _ _, .obj (by simp) ?_, .obj (by simp) ?_, .bool _ _,
      .bool _ _, .arr ?_⟩
    all_goals
      simp only [List.forall_mem_cons, List.not_mem_nil, false_imp_iff, implies_true, and_true]
    · exact ⟨.str _ _, .str _ _⟩
    · exact ⟨.str _ _, .str _ _, .int _ hshort.1⟩
    · exact ⟨.null _, .int _ hshort.2⟩
  · intro raw hraw
    exact (hcancel ⟨""⟩).1.mp ⟨raw, hraw⟩ rfl

end SupertonicServer.Wire
