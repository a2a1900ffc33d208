import SupertonicServer.Wire.Message

/-!
# The decoder

`decode` of `wire.py`. `json.loads` belongs to the standard library and is a parameter: on a
given text it returns a value or raises one of the three exceptions it documents. The code
catches `JSONDecodeError` and nothing else, so a plain `ValueError` (an integer literal past
the digit limit) and a `RecursionError` (deep nesting) leave `decode` as exceptions.

The field checks are made in the source's order; the first that fails names its field.
-/

namespace SupertonicServer.Wire

/-- What `json.loads` does on a text. -/
inductive LoadsResult where
  | value (v : Json)
  | jsonDecodeError (message : String)
  | valueError (message : String)
  | recursionError (message : String)

/-- An exception that leaves `decode`. -/
inductive DecodeException where
  | valueError (message : String)
  | recursionError (message : String)
deriving DecidableEq

def maxRawPreview : Nat := 512

/-- `_truncate`. -/
def truncate (s : String) : String :=
  if s.length ≤ maxRawPreview then s
  else String.ofList (s.toList.take maxRawPreview) ++ "...<truncated>"

/-- `_err`. -/
def err (reason raw : String) : IncomingMessage :=
  .parseError { reason := reason, raw := truncate raw }

/-! ## The field checks -/

/-- `isinstance(v, str)`. -/
def asStr (v : Json) (reason : String) : Except String String :=
  match v with
  | .str s => .ok s
  | _ => .error reason

/-- `isinstance(v, str) and v`. -/
def asNonEmptyStr (v : Json) (reason : String) : Except String String :=
  match v with
  | .str s => if s = "" then .error reason else .ok s
  | _ => .error reason

/-- `isinstance(v, bool)`. -/
def asBool (v : Json) (reason : String) : Except String Bool :=
  match v with
  | .bool b => .ok b
  | _ => .error reason

/-- `isinstance(v, dict)`. -/
def asObj (v : Json) (reason : String) : Except String Members :=
  match v with
  | .obj members => .ok members
  | _ => .error reason

/-- An `int` that is no `bool` and is positive. -/
def asPositiveInt (v : Json) (reason : String) : Except String Int :=
  match v with
  | .int n => if n ≤ 0 then .error reason else .ok n
  | _ => .error reason

/-- `None`, or whatever `check` accepts. -/
def optional {α : Type} (check : Json → String → Except String α) (v : Json)
    (reason : String) : Except String (Option α) :=
  match v with
  | .null => .ok none
  | v => (check v reason).map some

/-- The keys of a text frame. -/
def knownKeys : List String :=
  ["context_id", "transcript", "continue", "voice", "output_format", "model_id", "language",
    "add_timestamps", "use_original_timestamps", "generation_config",
    "pronunciation_dict_id", "cancel"]

/-- The checks of `_decode_text`, in order. -/
def decodeFields (obj : Members) : Except String IncomingText := do
  let ctx ← asNonEmptyStr (obj.get "context_id") "missing or empty context_id"
  let transcript ← asStr (obj.get "transcript") "missing or non-string transcript"
  let cont ← asBool (obj.get "continue") "missing or non-bool 'continue'"
  let voiceRaw ← asObj (obj.get "voice") "missing or non-object 'voice'"
  let voiceMode ← asStr (voiceRaw.get "mode") "voice requires string 'mode' and 'id'"
  let voiceId ← asStr (voiceRaw.get "id") "voice requires string 'mode' and 'id'"
  let ofRaw ← asObj (obj.get "output_format") "missing or non-object 'output_format'"
  let container ← asStr (ofRaw.get "container")
    "output_format requires string 'container' and 'encoding'"
  let encoding ← asStr (ofRaw.get "encoding")
    "output_format requires string 'container' and 'encoding'"
  let sr ← asPositiveInt (ofRaw.get "sample_rate")
    "output_format.sample_rate must be a positive int"
  let modelId ← optional asStr (obj.get "model_id") "model_id must be string if present"
  let language ← optional asStr (obj.get "language") "language must be string if present"
  let addTs ← asBool (obj.getD "add_timestamps" (.bool false))
    "add_timestamps must be bool if present"
  let useOrigTs ← asBool (obj.getD "use_original_timestamps" (.bool false))
    "use_original_timestamps must be bool if present"
  let genCfg ← optional asObj (obj.get "generation_config")
    "generation_config must be object if present"
  let pronDict ← optional asStr (obj.get "pronunciation_dict_id")
    "pronunciation_dict_id must be string if present"
  return {
    contextId := ctx
    transcript := transcript
    continue_ := cont
    voice := { mode := voiceMode, id := voiceId }
    outputFormat := { container := container, encoding := encoding, sampleRate := sr }
    modelId := modelId
    language := language
    addTimestamps := addTs
    useOriginalTimestamps := useOrigTs
    generationConfig := genCfg
    pronunciationDictId := pronDict
    extra := obj.filter fun kv => !knownKeys.contains kv.1 }

/-- `_decode_text`. -/
def decodeText (obj : Members) (raw : String) : IncomingMessage :=
  match decodeFields obj with
  | .ok m => .text m
  | .error reason => err reason raw

/-- `decode` on an object that `json.loads` returned. -/
def decodeObject (obj : Members) (text : String) : IncomingMessage :=
  match obj.get "cancel" with
  | .bool true =>
    match asNonEmptyStr (obj.get "context_id") "cancel message missing context_id" with
    | .ok ctx => .cancel { contextId := ctx }
    | .error reason => err reason text
  | _ => decodeText obj text

/-- `decode` on a text frame. -/
def decode (loads : String → LoadsResult) (text : String) :
    Except DecodeException IncomingMessage :=
  match loads text with
  | .jsonDecodeError message => .ok (err s!"invalid json: {message}" text)
  | .valueError message => .error (.valueError message)
  | .recursionError message => .error (.recursionError message)
  | .value (.obj obj) => .ok (decodeObject obj text)
  | .value _ => .ok (err "top-level json must be an object" text)

/-! ## When the decoder raises -/

/-- `json.loads` raises, on this text, an exception other than `JSONDecodeError`. -/
def LoadsRaises (loads : String → LoadsResult) (text : String) : Prop :=
  (∃ message, loads text = .valueError message) ∨
  (∃ message, loads text = .recursionError message)

/-- `decode` returns a message exactly where `json.loads` raises nothing uncaught. -/
theorem decode_ok_iff (loads : String → LoadsResult) (text : String) :
    (∃ msg, decode loads text = .ok msg) ↔ ¬ LoadsRaises loads text := by
  unfold decode LoadsRaises
  cases loads text with
  | jsonDecodeError message => simp
  | valueError message => simp
  | recursionError message => simp
  | value v => cases v <;> simp

theorem decode_error_iff (loads : String → LoadsResult) (text : String) :
    (∃ exc, decode loads text = .error exc) ↔ LoadsRaises loads text := by
  unfold decode LoadsRaises
  cases loads text with
  | jsonDecodeError message => simp
  | valueError message => simp
  | recursionError message => simp
  | value v => cases v <;> simp

theorem decode_of_valueError {loads : String → LoadsResult} {text message : String}
    (h : loads text = .valueError message) : decode loads text = .error (.valueError message) := by
  unfold decode
  rw [h]

theorem decode_of_jsonDecodeError {loads : String → LoadsResult} {text message : String}
    (h : loads text = .jsonDecodeError message) :
    decode loads text = .ok (err s!"invalid json: {message}" text) := by
  unfold decode
  rw [h]

end SupertonicServer.Wire
