import SupertonicServer.Wire.JsonTokens

/-!
# JSON, printed and read

`v.Within depth` says that `v` is a value the reader can return: no key twice in an object, a
float under one of its literals, integers short enough for `int`, and at most `depth`
containers inside each other. Every such value reads back from its text (`readJson_dumps`),
which is one line of printable ASCII (`dumps_printable`) with its surrogates in pairs
(`dumps_paired`).
-/

namespace SupertonicServer.Wire

open Lib

/-- A value that the reader can return. -/
inductive Json.Within : Nat → Json → Prop where
  | null (depth : Nat) : Within depth .null
  | bool (depth : Nat) (b : Bool) : Within depth (.bool b)
  | int (depth : Nat) {n : Int} (h : ShortInt n) : Within depth (.int n)
  | float (depth : Nat) {literal : String} (h : FloatLiteral literal.toList) :
      Within depth (.float literal)
  | str (depth : Nat) (s : String) : Within depth (.str s)
  | arr {depth : Nat} {items : List Json} (h : ∀ v ∈ items, Within depth v) :
      Within (depth + 1) (.arr items)
  | obj {depth : Nat} {members : Members} (keys : (members.map Prod.fst).Nodup)
      (h : ∀ kv ∈ members, Within depth kv.2) : Within (depth + 1) (.obj members)

/-! ## Objects -/

theorem set_keys (obj : Members) (key : String) (v : Json) :
    (obj.set key v).map Prod.fst =
      if key ∈ obj.map Prod.fst then obj.map Prod.fst else obj.map Prod.fst ++ [key] := by
  unfold Members.set
  split
  next =>
    rw [List.map_map]
    refine List.map_congr_left fun kv _ => ?_
    show (if kv.1 = key then (key, v) else kv).1 = kv.1
    split
    next h => exact h.symm
    next => rfl
  next => simp

theorem mem_set {obj : Members} {key : String} {v : Json} {kv : String × Json}
    (h : kv ∈ obj.set key v) : kv ∈ obj ∨ kv = (key, v) := by
  unfold Members.set at h
  split at h
  next =>
    obtain ⟨kw, hkw, he⟩ := List.mem_map.mp h
    split at he
    next => exact Or.inr he.symm
    next => exact Or.inl (he ▸ hkw)
  next => simpa using h

/-- `dict(pairs)` holds no key twice, and its values are among those of the pairs. -/
theorem ofPairs_spec (pairs : List (String × Json)) :
    ((Members.ofPairs pairs).map Prod.fst).Nodup ∧ ∀ kv ∈ Members.ofPairs pairs, kv ∈ pairs := by
  -- the pairs set so far are a prefix of all pairs
  have hfold : ∀ (todo : List (String × Json)) (obj : Members), (obj.map Prod.fst).Nodup →
      (∀ kv ∈ obj, kv ∈ pairs) → (∀ kv ∈ todo, kv ∈ pairs) →
      ((todo.foldl (fun obj kv => obj.set kv.1 kv.2) obj).map Prod.fst).Nodup ∧
        ∀ kv ∈ todo.foldl (fun obj kv => obj.set kv.1 kv.2) obj, kv ∈ pairs := by
    intro todo
    induction todo with
    | nil => exact fun obj hkeys hobj _ => ⟨hkeys, hobj⟩
    | cons kv todo ih =>
      intro obj hkeys hobj htodo
      rw [List.forall_mem_cons] at htodo
      refine ih (obj.set kv.1 kv.2) ?_ ?_ htodo.2
      · rw [set_keys]
        split
        next => exact hkeys
        next hnew =>
          rw [List.nodup_append]
          refine ⟨hkeys, List.nodup_singleton _, ?_⟩
          intro a ha b hb he
          rw [List.mem_singleton.mp hb] at he
          exact hnew (he ▸ ha)
      · intro kw hkw
        rcases mem_set hkw with h | h
        · exact hobj kw h
        · rw [h]
          exact htodo.1
  exact hfold pairs [] List.nodup_nil (by simp) (fun _ h => h)

/-- Pairs without a repeated key are their own dictionary. -/
theorem ofPairs_eq_self {pairs : List (String × Json)} (hkeys : (pairs.map Prod.fst).Nodup) :
    Members.ofPairs pairs = pairs := by
  have hfold : ∀ (todo : List (String × Json)) (obj : Members),
      ((obj ++ todo).map Prod.fst).Nodup →
      todo.foldl (fun obj kv => obj.set kv.1 kv.2) obj = obj ++ todo := by
    intro todo
    induction todo with
    | nil => simp
    | cons kv todo ih =>
      intro obj hnodup
      have hnew : kv.1 ∉ obj.map Prod.fst := by
        intro h
        rw [List.map_append, List.nodup_append] at hnodup
        exact hnodup.2.2 _ h _ (by simp) rfl
      have hset : obj.set kv.1 kv.2 = obj ++ [kv] := by
        rw [Members.set, if_neg hnew]
      rw [List.foldl_cons, hset, ih (obj ++ [kv]) (by simpa using hnodup)]
      simp
  exact hfold pairs [] hkeys

/-! ## Words and floats -/

theorem readWord_none {c : Char} {rest : List Char} (hc : c.isDigit = true) :
    readWord (c :: rest) = none ∧ ∀ d, d.isDigit = true → readWord ('-' :: d :: rest) = none := by
  have hne : ∀ d : Char, d.isDigit = true → d ≠ 'n' ∧ d ≠ 't' ∧ d ≠ 'f' ∧ d ≠ 'N' ∧ d ≠ 'I' := by
    intro d hd
    refine ⟨?_, ?_, ?_, ?_, ?_⟩
    all_goals
      intro he
      rw [he] at hd
      exact absurd hd (by decide)
  have hminus : '-' ≠ c := (digit_ne hc).1.symm
  constructor
  · obtain ⟨h1, h2, h3, h4, h5⟩ := hne c hc
    simp [readWord, words, h1.symm, h2.symm, h3.symm, h4.symm, h5.symm, hminus]
  · intro d hd
    simp [readWord, words, (hne d hd).2.2.2.2.symm]

/-- How a number starts. -/
theorem number_start {sign int : List Char} (hsign : Sign sign) (hint : Natural int)
    (rest : List Char) : ∃ c text, sign ++ int ++ rest = c :: text ∧
      (c.isDigit = true ∨ c = '-' ∧ ∃ d text', text = d :: text' ∧ d.isDigit = true) := by
  cases int with
  | nil => exact absurd rfl hint.1.1
  | cons d int =>
    have hd := hint.1.2 d List.mem_cons_self
    rcases hsign with rfl | rfl
    · exact ⟨d, int ++ rest, rfl, Or.inl hd⟩
    · exact ⟨'-', d :: int ++ rest, rfl, Or.inr ⟨rfl, d, int ++ rest, rfl, hd⟩⟩

/-- The first character decides that a number is no string, word, object or array. -/
theorem readValue_number (n depth : Nat) {c : Char} {text : List Char}
    (hc : c.isDigit = true ∨ c = '-' ∧ ∃ d text', text = d :: text' ∧ d.isDigit = true) :
    readValue n depth (c :: text) = readNumber (c :: text) := by
  have hword : readWord (c :: text) = none := by
    rcases hc with hc | ⟨rfl, d, text', rfl, hd⟩
    · exact (readWord_none hc).1
    · exact (readWord_none hd).2 d hd
  have hne : c ≠ '"' ∧ c ≠ '{' ∧ c ≠ '[' := by
    refine ⟨?_, ?_, ?_⟩
    all_goals
      intro he
      rw [he] at hc
      rcases hc with hc | ⟨hc, -⟩
      · exact absurd hc (by decide)
      · exact absurd hc (by decide)
  have hscalar : readScalar (c :: text) = readNumber (c :: text) := by
    rw [readScalar, if_neg hne.1, hword, Option.none_or]
  cases depth with
  | zero => exact hscalar
  | succ depth =>
    rw [readValue, if_neg hne.2.1, if_neg hne.2.2]
    exact hscalar

theorem reads_int (n depth : Nat) {k : Int} (hk : ShortInt k) :
    ReadsAs (readValue n depth) (dumpsInt k) (.int k) Follow := by
  intro rest hrest
  obtain ⟨sign, hsign, hparts⟩ := dumpsInt_parts k
  obtain ⟨c, text, htext, hc⟩ := number_start hsign (toDigits_natural k.natAbs) rest
  rw [← readNumber_int hk hrest, hparts, htext]
  exact readValue_number n depth hc

theorem reads_float (n depth : Nat) {literal : String} (h : FloatLiteral literal.toList) :
    ReadsAs (readValue n depth) literal.toList (.float literal) Follow := by
  intro rest hrest
  rcases h with ⟨sign, int, frac, exp, hsign, hint, hfrac, hexp, hsome, hparts⟩ | h | h | h
  · obtain ⟨c, text, htext, hc⟩ := number_start hsign hint (frac ++ exp ++ rest)
    have hread := readNumber_float hsign hint hfrac hexp hsome hrest
    rw [← hparts, String.ofList_toList] at hread
    have hassoc : literal.toList ++ rest = sign ++ int ++ (frac ++ exp ++ rest) := by
      rw [hparts]
      simp
    rw [← hread, hassoc, htext]
    exact readValue_number n depth hc
  all_goals
    obtain rfl : literal = _ := String.toList_injective h
    cases depth with
    | zero => rfl
    | succ depth => rfl

/-! ## Values -/

theorem dumpsItems_eq (vs : List Json) : dumpsItems vs = printed dumps ',' ']' [' '] vs := by
  induction vs with
  | nil => rfl
  | cons v vs ih =>
    cases vs with
    | nil => rfl
    | cons w vs =>
      rw [dumpsItems, printed, ih]
      rfl

theorem dumpsMembers_eq (kvs : Members) :
    dumpsMembers kvs = printed dumpsMember ',' '}' [' '] kvs := by
  induction kvs with
  | nil => rfl
  | cons kv kvs ih =>
    cases kvs with
    | nil => rfl
    | cons kw kvs =>
      rw [dumpsMembers, printed, ih]
      rfl

/-- The printed form of a value starts with no blank and no closing bracket. -/
theorem dumps_start {depth : Nat} {v : Json} (h : v.Within depth) :
    ∃ c text, dumps v = c :: text ∧ isBlank c = false ∧ c ≠ ']' := by
  have hnumber : ∀ {c : Char} {text : List Char},
      (c.isDigit = true ∨ c = '-' ∧ ∃ d text', text = d :: text' ∧ d.isDigit = true) →
      isBlank c = false ∧ c ≠ ']' := by
    intro c text hc
    rcases hc with hc | ⟨rfl, -⟩
    · have hne : c ≠ ' ' ∧ c ≠ '\t' ∧ c ≠ '\n' ∧ c ≠ '\r' ∧ c ≠ ']' := by
        refine ⟨?_, ?_, ?_, ?_, ?_⟩
        all_goals
          intro he
          rw [he] at hc
          exact absurd hc (by decide)
      simp [isBlank, hne.1, hne.2.1, hne.2.2.1, hne.2.2.2.1, hne.2.2.2.2]
    · exact ⟨by decide, by decide⟩
  cases h with
  | null => exact ⟨'n', _, rfl, by decide, by decide⟩
  | bool _ b =>
    cases b with
    | true => exact ⟨'t', _, rfl, by decide, by decide⟩
    | false => exact ⟨'f', _, rfl, by decide, by decide⟩
  | @int _ n _ =>
    obtain ⟨sign, hsign, hparts⟩ := dumpsInt_parts n
    obtain ⟨c, text, htext, hc⟩ := number_start hsign (toDigits_natural n.natAbs) []
    rw [List.append_nil, ← hparts] at htext
    exact ⟨c, text, htext, hnumber hc⟩
  | @float _ literal hlit =>
    rcases hlit with ⟨sign, int, frac, exp, hsign, hint, -, -, -, hparts⟩ | h | h | h
    · obtain ⟨c, text, htext, hc⟩ := number_start hsign hint (frac ++ exp)
      rw [← List.append_assoc, ← hparts] at htext
      exact ⟨c, text, htext, hnumber hc⟩
    · exact ⟨'N', _, h, by decide, by decide⟩
    · exact ⟨'I', _, h, by decide, by decide⟩
    · exact ⟨'-', _, h, by decide, by decide⟩
  | str s => exact ⟨'"', _, rfl, by decide, by decide⟩
  | arr _ => exact ⟨'[', _, rfl, by decide, by decide⟩
  | obj _ _ => exact ⟨'{', _, rfl, by decide, by decide⟩

theorem follow_sep {c : Char} {rest : List Char} (h : c = ',' ∨ c = ']' ∨ c = '}') :
    Follow (c :: rest) := by
  rw [Follow, stopsAt_cons]
  rcases h with rfl | rfl | rfl
  · decide
  · decide
  · decide

theorem dumpsMember_start (kv : String × Json) :
    ∃ c text, dumpsMember kv = c :: text ∧ isBlank c = false ∧ c ≠ '}' := by
  obtain ⟨key, v⟩ := kv
  exact ⟨'"', _, rfl, by decide, by decide⟩

/-- The value of a member is shorter than the member. -/
theorem length_dumps_lt (kv : String × Json) :
    (dumps kv.2).length < (dumpsMember kv).length := by
  obtain ⟨key, v⟩ := kv
  simp only [dumpsMember, dumpsStr, List.length_append, List.length_cons]
  omega

theorem reads_member {value : Reader Json} {kv : String × Json} {depth : Nat}
    (hkv : kv.2.Within depth)
    (h : ReadsAs value (dumps kv.2) kv.2 Follow) :
    ReadsAs (readMember value) (dumpsMember kv) kv Follow := by
  obtain ⟨key, v⟩ := kv
  intro rest hrest
  obtain ⟨c, text, htext, hblank, -⟩ := dumps_start hkv
  have hstop : StopsAt isBlank (dumps v ++ rest) := by
    rw [htext]
    exact stopsAt_cons.mpr hblank
  have hform : dumpsMember (key, v) ++ rest =
      '"' :: (key.toList.flatMap escapeChar ++ '"' :: (':' :: ([' '] ++ (dumps v ++ rest)))) := by
    simp [dumpsMember, dumpsStr]
  rw [hform, readMember, if_pos rfl, scanString_escaped]
  dsimp only
  rw [skip_of_stopsAt (stopsAt_cons.mpr (by decide))]
  dsimp only
  rw [if_pos rfl, skip_run (forall_mem_of_all (by decide)) hstop, h rest hrest]
  rfl

/-- A printed string is read at every depth. -/
theorem reads_str (n depth : Nat) (s : String) :
    ReadsAs (readValue n depth) (dumpsStr s) (.str s) Follow := by
  intro rest _
  have hscalar : readScalar (dumpsStr s ++ rest) = some (.str s, rest) := by
    rw [dumpsStr_append, readScalar, if_pos rfl, scanString_escaped]
    rfl
  rw [← hscalar, dumpsStr_append]
  cases depth with
  | zero => rfl
  | succ depth => rfl

/-- **Every value reads back**, for item counts from the length of its text on, in front of
whatever may follow it. -/
theorem reads_dumps (n : Nat) {depth : Nat} {v : Json} (h : v.Within depth) :
    (dumps v).length ≤ n → ReadsAs (readValue n depth) (dumps v) v Follow := by
  -- the induction is on the depth, over the values of the containers
  induction h with
  | null depth =>
    intro _ rest _
    cases depth with
    | zero => rfl
    | succ depth => rfl
  | bool depth b =>
    intro _ rest _
    cases b with
    | true =>
      cases depth with
      | zero => rfl
      | succ depth => rfl
    | false =>
      cases depth with
      | zero => rfl
      | succ depth => rfl
  | int depth hn => exact fun _ => reads_int n depth hn
  | float depth hlit => exact fun _ => reads_float n depth hlit
  | str depth s => exact fun _ => reads_str n depth s
  | @arr depth items hitems ih =>
    intro hlen rest _
    rw [dumps, List.length_cons, dumpsItems_eq] at hlen
    have hread : readDelimited isBlank ',' ']' (readValue n depth) n (dumpsItems items ++ rest) =
        some (items, rest) := by
      rw [dumpsItems_eq]
      exact readDelimited_printed (by decide) (by decide) (by decide) (forall_mem_of_all (by decide))
        (fun c rest hc => follow_sep (hc.elim Or.inl fun h => Or.inr (Or.inl h)))
        (by omega) (fun v hv hshort => ih v hv (Nat.le_of_lt hshort))
        (fun v hv => dumps_start (hitems v hv)) rest
    rw [dumps, List.cons_append, readValue, if_neg (by decide), if_pos rfl, hread]
    rfl
  | @obj depth members hkeys hmembers ih =>
    intro hlen rest _
    rw [dumps, List.length_cons, dumpsMembers_eq] at hlen
    have hread : readDelimited isBlank ',' '}' (readMember (readValue n depth)) n
        (dumpsMembers members ++ rest) = some (members, rest) := by
      rw [dumpsMembers_eq]
      refine readDelimited_printed (by decide) (by decide) (by decide) (forall_mem_of_all (by decide))
        (fun c rest hc => follow_sep (hc.elim Or.inl fun h => Or.inr (Or.inr h)))
        (by omega) (fun kv hkv hshort => ?_) (fun kv _ => dumpsMember_start kv) rest
      have hvalue := ih kv hkv (Nat.le_of_lt (Nat.lt_trans (length_dumps_lt kv) hshort))
      exact reads_member (hmembers kv hkv) hvalue
    rw [dumps, List.cons_append, readValue, if_pos rfl, hread, Option.map_some,
      ofPairs_eq_self hkeys]

/-- **A printed value reads back as itself.** -/
theorem readJson_dumps {depth : Nat} {v : Json} (h : v.Within depth) :
    readJson depth (dumps v) = some v := by
  obtain ⟨c, text, htext, hblank, -⟩ := dumps_start h
  have hskip : skip isBlank (dumps v) = dumps v := by
    rw [htext]
    exact skip_of_stopsAt (stopsAt_cons.mpr hblank)
  have hread := reads_dumps (dumps v).length h (Nat.le_refl _) [] (stopsAt_nil _)
  rw [List.append_nil] at hread
  rw [readJson, hskip, hread]
  rfl

/-! ## The characters of the text -/

/-- A printable ASCII character. -/
def Printable (c : Char) : Prop := 32 ≤ c.toNat ∧ c.toNat ≤ 126

instance (c : Char) : Decidable (Printable c) := inferInstanceAs (Decidable (_ ∧ _))

theorem hexDigit_printable (n : Nat) : Printable (hexDigit n) := by
  have hall : ∀ d < 16, Printable (Nat.digitChar d) := by decide
  exact hall (n % 16) (Nat.mod_lt n (by decide))

theorem escapeChar_printable (c : Char) : ∀ d ∈ escapeChar c, Printable d := by
  intro d hd
  unfold escapeChar at hd
  split at hd
  next e he =>
    have hmem : (c, e) ∈ escapes := by
      obtain ⟨l₁, l₂, hsplit, -⟩ := List.lookup_eq_some_iff.mp he
      rw [hsplit]
      simp
    have hall : ∀ p ∈ escapes, Printable '\\' ∧ Printable p.2 := by decide
    rcases List.mem_cons.mp hd with rfl | hd
    · exact (hall _ hmem).1
    · rw [List.mem_singleton.mp hd]
      exact (hall _ hmem).2
  next =>
    split at hd
    next hprint =>
      rw [List.mem_singleton.mp hd]
      exact hprint
    next =>
      obtain ⟨u, -, hu⟩ := List.mem_flatMap.mp hd
      simp only [unicodeEscape, List.mem_cons, List.not_mem_nil, or_false] at hu
      rcases hu with rfl | rfl | rfl | rfl | rfl | rfl
      · decide
      · decide
      · exact hexDigit_printable _
      · exact hexDigit_printable _
      · exact hexDigit_printable _
      · exact hexDigit_printable _

theorem dumpsStr_printable (s : String) : ∀ c ∈ dumpsStr s, Printable c := by
  intro c hc
  simp only [dumpsStr, List.cons_append, List.mem_cons, List.mem_append, List.mem_flatMap,
    List.not_mem_nil, or_false] at hc
  rcases hc with rfl | ⟨d, -, hd⟩ | rfl
  · decide
  · exact escapeChar_printable d c hd
  · decide

/-- A printable character that starts no escape. -/
def Plain (c : Char) : Prop := Printable c ∧ c ≠ '\\'

instance (c : Char) : Decidable (Plain c) := inferInstanceAs (Decidable (_ ∧ _))

theorem plain_of_isDigit {c : Char} (h : c.isDigit = true) : Plain c := by
  refine ⟨?_, fun hc => ?_⟩
  · simp only [Char.isDigit, Bool.and_eq_true, decide_eq_true_eq, UInt32.le_iff_toNat_le] at h
    have h1 : 48 ≤ c.toNat := h.1
    have h2 : c.toNat ≤ 57 := h.2
    exact ⟨by omega, by omega⟩
  · rw [hc] at h
    exact absurd h (by decide)

theorem digits_plain {ds : List Char} (h : Digits ds) : ∀ c ∈ ds, Plain c :=
  fun c hc => plain_of_isDigit (h.2 c hc)

theorem sign_plain {sign : List Char} (h : sign = [] ∨ sign = ['+'] ∨ sign = ['-']) :
    ∀ c ∈ sign, Plain c := by
  rcases h with rfl | rfl | rfl
  · exact forall_mem_of_all (by decide)
  · exact forall_mem_of_all (by decide)
  · exact forall_mem_of_all (by decide)

theorem floatLiteral_plain {literal : List Char} (h : FloatLiteral literal) :
    ∀ c ∈ literal, Plain c := by
  rcases h with ⟨sign, int, frac, exp, hsign, hint, hfrac, hexp, -, rfl⟩ | rfl | rfl | rfl
  · intro c hc
    rcases List.mem_append.mp hc with hc | hc
    · rcases List.mem_append.mp hc with hc | hc
      · rcases List.mem_append.mp hc with hc | hc
        · exact sign_plain (hsign.elim Or.inl fun h => Or.inr (Or.inr h)) c hc
        · exact digits_plain hint.1 c hc
      · rcases hfrac with rfl | ⟨ds, hds, rfl⟩
        · exact absurd hc List.not_mem_nil
        · rcases List.mem_cons.mp hc with rfl | hc
          · decide
          · exact digits_plain hds c hc
    · rcases hexp with rfl | ⟨e, sign, ds, he, hs, hds, rfl⟩
      · exact absurd hc List.not_mem_nil
      · rcases List.mem_append.mp hc with hc | hc
        · rcases List.mem_cons.mp hc with rfl | hc
          · rcases he with rfl | rfl
            · decide
            · decide
          · exact sign_plain hs c hc
        · exact digits_plain hds c hc
  · exact forall_mem_of_all (by decide)
  · exact forall_mem_of_all (by decide)
  · exact forall_mem_of_all (by decide)

theorem dumpsInt_plain (n : Int) : ∀ c ∈ dumpsInt n, Plain c := by
  obtain ⟨sign, hsign, hparts⟩ := dumpsInt_parts n
  intro c hc
  rw [hparts] at hc
  rcases List.mem_append.mp hc with hc | hc
  · exact sign_plain (hsign.elim Or.inl fun h => Or.inr (Or.inr h)) c hc
  · exact digits_plain (toDigits_digits _) c hc

/-- A printed value is one line of printable ASCII. -/
theorem dumps_printable {depth : Nat} {v : Json} (h : v.Within depth) :
    ∀ c ∈ dumps v, Printable c := by
  induction h with
  | null depth => exact forall_mem_of_all (by decide)
  | bool depth b => cases b <;> exact forall_mem_of_all (by decide)
  | @int depth n _ => exact fun c hc => (dumpsInt_plain n c hc).1
  | float depth hlit => exact fun c hc => (floatLiteral_plain hlit c hc).1
  | str depth s => exact dumpsStr_printable s
  | @arr depth items _ ih =>
    rw [dumps, List.forall_mem_cons, dumpsItems_eq]
    exact ⟨by decide, forall_mem_printed (by decide) (by decide)
      (forall_mem_of_all (by decide)) ih⟩
  | @obj depth members _ _ ih =>
    rw [dumps, List.forall_mem_cons, dumpsMembers_eq]
    refine ⟨by decide, forall_mem_printed (by decide) (by decide)
      (forall_mem_of_all (by decide)) ?_⟩
    intro kv hkv c hc
    have hvalue := ih kv hkv
    obtain ⟨key, v⟩ := kv
    rw [dumpsMember] at hc
    rcases List.mem_append.mp hc with hc | hc
    · rcases List.mem_append.mp hc with hc | hc
      · exact dumpsStr_printable key c hc
      · have hcolon : ∀ c ∈ ": ".toList, Printable c :=
          forall_mem_of_all (by decide)
        exact hcolon c hc
    · exact hvalue c hc

/-! ## The surrogates of the text -/

theorem textUnits_escape {e : Char} (he : e ≠ 'u') (rest : List Char) :
    textUnits ('\\' :: e :: rest) = e.toNat :: textUnits rest := by
  rw [textUnits.eq_def]
  dsimp only
  rw [if_pos rfl, if_neg he]

theorem textUnits_unicodeEscape {u : Nat} (hu : u < 0x10000) (rest : List Char) :
    textUnits (unicodeEscape u ++ rest) = u :: textUnits rest := by
  rw [unicodeEscape]
  simp only [List.cons_append, List.nil_append]
  rw [textUnits.eq_def]
  dsimp only
  rw [if_pos rfl, if_pos rfl, hex4_hexDigit hu]

theorem textUnits_flatMap_unicodeEscape {us : List Nat} (hus : ∀ u ∈ us, u < 0x10000)
    (rest : List Char) :
    textUnits (us.flatMap unicodeEscape ++ rest) = us ++ textUnits rest := by
  induction us with
  | nil => rfl
  | cons u us ih =>
    rw [List.forall_mem_cons] at hus
    rw [List.flatMap_cons, List.append_assoc, textUnits_unicodeEscape hus.1, ih hus.2,
      List.cons_append]

/-- A text that may stand in front of any other without a surrogate more or less. -/
def Whole (text : List Char) : Prop := ∀ rest, Paired (text ++ rest) ↔ Paired rest

theorem whole_nil : Whole [] := fun _ => Iff.rfl

theorem Whole.append {s t : List Char} (hs : Whole s) (ht : Whole t) : Whole (s ++ t) := by
  intro rest
  rw [List.append_assoc]
  exact (hs _).trans (ht rest)

/-- A character is its own unit, or one of the basic plane stands in for it. -/
theorem paired_char (c : Char) (us : List Nat) :
    (joinUnits (c.toNat :: us)).isSome = (joinUnits us).isSome := by
  rw [joinUnits_char, Option.isSome_map]

theorem whole_plain {text : List Char} (h : ∀ c ∈ text, Plain c) : Whole text := by
  induction text with
  | nil => exact whole_nil
  | cons c text ih =>
    rw [List.forall_mem_cons] at h
    intro rest
    have hunits : textUnits (c :: (text ++ rest)) = c.toNat :: textUnits (text ++ rest) := by
      rw [textUnits.eq_def]
      dsimp only
      rw [if_neg h.1.2]
    rw [List.cons_append, Paired, hunits, paired_char]
    exact ih h.2 rest

theorem whole_escapeChar (c : Char) : Whole (escapeChar c) := by
  unfold escapeChar
  split
  next e he =>
    intro rest
    show Paired ('\\' :: e :: rest) ↔ _
    rw [Paired, textUnits_escape (unescape_of_lookup he).2.1, paired_char]
    rfl
  next hnone =>
    split
    next hprint =>
      refine whole_plain ?_
      rw [List.forall_mem_singleton]
      refine ⟨hprint, fun hc => ?_⟩
      rw [hc] at hnone
      exact absurd hnone (by decide)
    next =>
      -- the surrogates of a character come in pairs
      intro rest
      rw [Paired, textUnits_flatMap_unicodeEscape (units_lt c), joinUnits_units_append,
        Option.isSome_map]
      rfl

theorem whole_dumpsStr (s : String) : Whole (dumpsStr s) := by
  have hquote : Whole ['"'] := whole_plain (forall_mem_of_all (by decide))
  have hchars : ∀ cs : List Char, Whole (cs.flatMap escapeChar) := by
    intro cs
    induction cs with
    | nil => exact whole_nil
    | cons c cs ih => exact (whole_escapeChar c).append ih
  exact (hquote.append (hchars s.toList)).append hquote

/-- A list between brackets, where its items are. -/
theorem whole_printed {α : Type} {print : α → List Char} {sep close : Char} {gap : List Char}
    (hsep : Plain sep) (hclose : Plain close) (hgap : ∀ c ∈ gap, Plain c) {as : List α}
    (h : ∀ a ∈ as, Whole (print a)) : Whole (printed print sep close gap as) := by
  have hend : Whole [close] := whole_plain (by simpa using hclose)
  induction as with
  | nil => exact hend
  | cons a as ih =>
    rw [List.forall_mem_cons] at h
    cases as with
    | nil => exact h.1.append hend
    | cons b as =>
      have hgap' : Whole (sep :: gap) := whole_plain (List.forall_mem_cons.mpr ⟨hsep, hgap⟩)
      exact (h.1.append hgap').append (ih h.2)

theorem whole_dumps {depth : Nat} {v : Json} (h : v.Within depth) : Whole (dumps v) := by
  induction h with
  | null depth => exact whole_plain (forall_mem_of_all (by decide))
  | bool depth b => cases b <;> exact whole_plain (forall_mem_of_all (by decide))
  | @int depth n _ => exact whole_plain (dumpsInt_plain n)
  | float depth hlit => exact whole_plain (floatLiteral_plain hlit)
  | str depth s => exact whole_dumpsStr s
  | @arr depth items _ ih =>
    have hopen : Whole ['['] := whole_plain (forall_mem_of_all (by decide))
    rw [dumps, dumpsItems_eq]
    exact hopen.append (whole_printed (by decide) (by decide) (forall_mem_of_all (by decide)) ih)
  | @obj depth members _ _ ih =>
    have hopen : Whole ['{'] := whole_plain (forall_mem_of_all (by decide))
    have hcolon : Whole ": ".toList := whole_plain (forall_mem_of_all (by decide))
    rw [dumps, dumpsMembers_eq]
    refine hopen.append
      (whole_printed (by decide) (by decide) (forall_mem_of_all (by decide)) ?_)
    intro kv hkv
    have hvalue := ih kv hkv
    obtain ⟨key, v⟩ := kv
    exact ((whole_dumpsStr key).append hcolon).append hvalue

/-- **No surrogate is alone** in the text of a value. -/
theorem dumps_paired {depth : Nat} {v : Json} (h : v.Within depth) : Paired (dumps v) := by
  have hnil : Paired [] := rfl
  have hpaired := (whole_dumps h []).mpr hnil
  rwa [List.append_nil] at hpaired

end SupertonicServer.Wire
