import LinkTemplate.Template
import Mathlib.Data.Finset.Card
import Mathlib.Data.List.Induction
import Mathlib.Tactic.SplitIfs

/-! # Insertion into captures -/

namespace LinkTemplate

namespace Text

/-- What a character after a backslash stands for, unless four digits come after it. -/
def unescape? (c : Char) : Option Char :=
  if c = '"' ∨ c = '\\' ∨ c = '/' then some c
  else if c = 'b' then some '\x08'
  else if c = 'f' then some '\x0c'
  else if c = 'n' then some '\n'
  else if c = 'r' then some '\r'
  else if c = 't' then some '\t'
  else none

/-- The character with a number of four hexadecimal digits, if there is one. -/
def codeUnit? (a b c d : Char) : Option Char :=
  match Percent.hexValue? a, Percent.hexValue? b, Percent.hexValue? c, Percent.hexValue? d with
  | some i, some j, some k, some l =>
    let n := 16 * (16 * (16 * i + j) + k) + l
    if n.isValidChar then some (Char.ofNat n) else none
  | _, _, _, _ => none

/-- A mark of JSON that stands outside of strings, or a string. -/
inductive JsonToken where
  | mark (c : Char)
  | string (s : Text)
deriving DecidableEq, Repr

/-- Reads from left to right. `run?` is what has been read of a string, backwards. -/
def jsonTokens? (run? : Option Text) : Text → Option (List JsonToken)
  | [] => if run?.isNone then some [] else none
  | '\\' :: 'u' :: a :: b :: c :: d :: s =>
    match run?, codeUnit? a b c d with
    | some run, some e => jsonTokens? (some (e :: run)) s
    | _, _ => none
  | '\\' :: c :: s =>
    match run?, unescape? c with
    | some run, some e => jsonTokens? (some (e :: run)) s
    | _, _ => none
  | c :: s =>
    match run? with
    | none =>
      if c = '"' then jsonTokens? (some []) s
      else (jsonTokens? none s).map (.mark c :: ·)
    | some run =>
      if c = '"' then (jsonTokens? none s).map (.string run.reverse :: ·)
      else if c = '\\' ∨ c.toNat < 0x20 then none
      else jsonTokens? (some (c :: run)) s

def membersFrom? : List JsonToken → Option (List (Text × Text))
  | [.string key, .mark ':', .string value, .mark '}'] => some [(key, value)]
  | .string key :: .mark ':' :: .string value :: .mark ',' :: tokens =>
    (membersFrom? tokens).map ((key, value) :: ·)
  | _ => none

def members? : List JsonToken → Option (List (Text × Text))
  | [.mark '{', .mark '}'] => some []
  | .mark '{' :: tokens => membersFrom? tokens
  | _ => none

/-- The members of a JSON object in their order. -/
def readObject? (s : Text) : Option (List (Text × Text)) := (jsonTokens? none s).bind members?

private theorem hexValue?_digitChar :
    ∀ n, n < 16 → Percent.hexValue? (Nat.digitChar n) = some n := by
  decide

private theorem codeUnit?_of_lt {c : Char} (h : c.toNat < 0x20) :
    codeUnit? '0' '0' (Nat.digitChar (c.toNat / 16)) (Nat.digitChar (c.toNat % 16)) = some c := by
  have hzero : Percent.hexValue? '0' = some 0 := by decide
  have hvalue : 16 * (16 * (16 * 0 + 0) + c.toNat / 16) + c.toNat % 16 = c.toNat := by omega
  simp only [codeUnit?, hzero, hexValue?_digitChar _ (show c.toNat / 16 < 16 by omega),
    hexValue?_digitChar _ (show c.toNat % 16 < 16 by omega), hvalue, Char.ofNat_toNat]
  exact if_pos c.valid

private theorem jsonTokens?_codeUnit {a b c d e : Char} (h : codeUnit? a b c d = some e)
    (run s : Text) : jsonTokens? (some run) ('\\' :: 'u' :: a :: b :: c :: d :: s) =
      jsonTokens? (some (e :: run)) s := by
  rw [jsonTokens?]
  exact h

theorem jsonTokens?_jsonChar_append (run : Text) (c : Char) (s : Text) :
    jsonTokens? (some run) (jsonChar c ++ s) = jsonTokens? (some (c :: run)) s := by
  unfold jsonChar
  split_ifs with hquote hback hb hf hn hr ht hlow
  case pos => subst hquote; rfl
  case pos => subst hback; rfl
  case pos => subst hb; rfl
  case pos => subst hf; rfl
  case pos => subst hn; rfl
  case pos => subst hr; rfl
  case pos => subst ht; rfl
  case pos => exact jsonTokens?_codeUnit (codeUnit?_of_lt hlow) run s
  case neg =>
    rw [List.cons_append, List.nil_append, jsonTokens?, if_neg hquote,
      if_neg (not_or.mpr ⟨hback, hlow⟩)]
    · rintro a b c d s rfl
      exact fun _ => hback rfl
    · exact fun _ _ h _ => hback h

theorem jsonTokens?_json_append (s rest : Text) :
    jsonTokens? none (json s ++ rest) = (jsonTokens? none rest).map (.string s :: ·) := by
  have hchars (run : Text) : jsonTokens? (some run) (s.flatMap jsonChar ++ '"' :: rest) =
      (jsonTokens? none rest).map (.string (run.reverse ++ s) :: ·) := by
    induction s generalizing run with
    | nil => rw [List.append_nil]; rfl
    | cons c s ih =>
      rw [List.flatMap_cons, List.append_assoc, jsonTokens?_jsonChar_append, ih]
      simp
  rw [json, enquote, List.cons_append, List.cons_append, List.append_assoc]
  exact hchars []

theorem jsonTokens?_mark {c : Char} (hback : c ≠ '\\') (hquote : c ≠ '"') (s : Text) :
    jsonTokens? none (c :: s) = (jsonTokens? none s).map (.mark c :: ·) := by
  rw [jsonTokens?, if_neg hquote]
  · rintro a b c d s rfl
    exact fun _ => hback rfl
  · exact fun _ _ h _ => hback h

private theorem jsonTokens?_member_append (m : Text × Text) (rest : Text) :
    jsonTokens? none (json m.1 ++ ':' :: json m.2 ++ rest) =
      (jsonTokens? none rest).map (.string m.1 :: .mark ':' :: .string m.2 :: ·) := by
  rw [List.append_assoc, jsonTokens?_json_append, List.cons_append,
    jsonTokens?_mark (by decide) (by decide), jsonTokens?_json_append, Option.map_map,
    Option.map_map]
  rfl

private theorem exists_jsonTokens?_members (m : Text × Text) (ms : List (Text × Text)) :
    ∃ tokens, jsonTokens? none ([','].intercalate ((m :: ms).map fun m =>
      json m.1 ++ ':' :: json m.2) ++ ['}']) = some tokens ∧
        membersFrom? tokens = some (m :: ms) := by
  induction ms generalizing m with
  | nil =>
    refine ⟨[.string m.1, .mark ':', .string m.2, .mark '}'], ?_, rfl⟩
    rw [List.map_singleton, List.intercalate_singleton, jsonTokens?_member_append]
    rfl
  | cons m' ms ih =>
    obtain ⟨tokens, htokens, hmembers⟩ := ih m'
    rw [List.map_cons] at htokens
    refine ⟨.string m.1 :: .mark ':' :: .string m.2 :: .mark ',' :: tokens, ?_, ?_⟩
    · rw [List.map_cons, List.map_cons, List.intercalate_cons_cons, List.append_assoc,
        List.append_assoc, jsonTokens?_member_append, List.singleton_append,
        jsonTokens?_mark (by decide) (by decide), htokens]
      rfl
    · rw [membersFrom?, hmembers]
      rfl

/-- An object is read back as the members it was written for, in their order. -/
theorem readObject?_jsonObject (members : List (Text × Text)) :
    readObject? (jsonObject members) = some members := by
  cases members with
  | nil => rfl
  | cons m ms =>
    obtain ⟨tokens, htokens, hmembers⟩ := exists_jsonTokens?_members m ms
    rw [readObject?, jsonObject, List.cons_append, jsonTokens?_mark (by decide) (by decide),
      htokens, Option.map_some, Option.bind_some, members?, hmembers]
    rintro rfl
    cases hmembers

end Text

namespace Captures

variable {c d : Capture} {es inserted : List Capture} {cs : Captures}

theorem map_name_insertEntry_of_mem (h : c.name ∈ es.map Capture.name) :
    (insertEntry c es).map Capture.name = es.map Capture.name := by
  induction es with
  | nil => exact absurd h List.not_mem_nil
  | cons e es ih =>
    rw [insertEntry]
    by_cases he : e.name = c.name
    · rw [if_pos he, List.map_cons, List.map_cons, he]
    · have hmem : c.name ∈ es.map Capture.name := (List.mem_cons.mp h).resolve_left (Ne.symm he)
      rw [if_neg he, List.map_cons, List.map_cons, ih hmem]

theorem mem_of_mem_insertEntry (h : d ∈ insertEntry c es) : d = c ∨ d ∈ es := by
  induction es with
  | nil => exact .inl (List.mem_singleton.mp h)
  | cons e es ih =>
    rw [insertEntry] at h
    split at h
    · exact (List.mem_cons.mp h).imp_right (List.mem_cons_of_mem e)
    · rcases List.mem_cons.mp h with rfl | h
      · exact .inr List.mem_cons_self
      · exact (ih h).imp_right (List.mem_cons_of_mem e)

theorem insertEntry_of_not_mem (h : c.name ∉ es.map Capture.name) :
    insertEntry c es = es ++ [c] := by
  induction es with
  | nil => rfl
  | cons e es ih =>
    rw [List.map_cons, List.mem_cons, not_or] at h
    rw [insertEntry, if_neg (Ne.symm h.1), ih h.2, List.cons_append]

theorem map_name_insertEntry (c : Capture) (es : List Capture) :
    (insertEntry c es).map Capture.name = if c.name ∈ es.map Capture.name
      then es.map Capture.name else es.map Capture.name ++ [c.name] := by
  by_cases hc : c.name ∈ es.map Capture.name
  · rw [if_pos hc, map_name_insertEntry_of_mem hc]
  · rw [if_neg hc, insertEntry_of_not_mem hc, List.map_append, List.map_singleton]

theorem entries_ofList_concat (inserted : List Capture) (c : Capture) :
    (ofList (inserted ++ [c])).entries = insertEntry c (ofList inserted).entries := by
  rw [ofList, List.foldl_append]
  rfl

theorem map_name_ofList (inserted : List Capture) :
    (ofList inserted).entries.map Capture.name = (inserted.map Capture.name).eraseDups := by
  induction inserted using List.reverseRecOn with
  | nil => rfl
  | append_singleton inserted c ih =>
    rw [entries_ofList_concat, map_name_insertEntry, ih, List.map_append, List.map_singleton,
      List.eraseDups_append]
    by_cases hc : c.name ∈ inserted.map Capture.name
    · have hrest : [c.name].removeAll (inserted.map Capture.name) = [] := by
        simp [List.removeAll, -List.mem_map, hc]
      rw [if_pos (List.mem_eraseDups.mpr hc), hrest, List.eraseDups_nil, List.append_nil]
    · have hrest : [c.name].removeAll (inserted.map Capture.name) = [c.name] := by
        simp [List.removeAll, -List.mem_map, hc]
      rw [if_neg (mt List.mem_eraseDups.mp hc), hrest]
      rfl

theorem find?_insertEntry (c : Capture) (es : List Capture) (name : Text) :
    (insertEntry c es).find? (·.name = name) =
      if c.name = name then some c else es.find? (·.name = name) := by
  induction es with
  | nil => by_cases hc : c.name = name <;> simp [insertEntry, hc]
  | cons e es ih =>
    rw [insertEntry]
    by_cases he : e.name = c.name
    · rw [if_pos he]
      by_cases hc : c.name = name <;> simp [he, hc]
    · rw [if_neg he]
      by_cases hc : c.name = name
      · have hne : e.name ≠ name := fun hn => he (hn.trans hc.symm)
        simp [hc, hne, ih]
      · by_cases hn : e.name = name <;> simp [hc, hn, ih]

theorem mem_of_mem_ofList (h : c ∈ (ofList inserted).entries) : c ∈ inserted := by
  induction inserted using List.reverseRecOn with
  | nil => exact absurd h List.not_mem_nil
  | append_singleton inserted d ih =>
    rw [entries_ofList_concat] at h
    rcases mem_of_mem_insertEntry h with rfl | h
    · exact List.mem_append_right _ List.mem_cons_self
    · exact List.mem_append_left _ (ih h)

theorem entries_ofList (h : (inserted.map Capture.name).Nodup) :
    (ofList inserted).entries = inserted := by
  induction inserted using List.reverseRecOn with
  | nil => rfl
  | append_singleton inserted c ih =>
    rw [List.map_append, List.nodup_append] at h
    obtain ⟨hcs, -, hne⟩ := h
    have hc : c.name ∉ inserted.map Capture.name := fun hm =>
      hne _ hm _ (List.mem_singleton_self _) rfl
    rw [entries_ofList_concat, ih hcs, insertEntry_of_not_mem hc]

private theorem insertEntry_map {f : Capture → Capture} (h : ∀ c, (f c).name = c.name)
    (c : Capture) (es : List Capture) :
    insertEntry (f c) (es.map f) = (insertEntry c es).map f := by
  induction es with
  | nil => rfl
  | cons e es ih =>
    rw [List.map_cons, insertEntry, insertEntry, h, h]
    by_cases he : e.name = c.name
    · rw [if_pos he, if_pos he, List.map_cons]
    · rw [if_neg he, if_neg he, List.map_cons, ih]

theorem entries_ofList_map {f : Capture → Capture} (h : ∀ c, (f c).name = c.name)
    (inserted : List Capture) :
    (ofList (inserted.map f)).entries = (ofList inserted).entries.map f := by
  induction inserted using List.reverseRecOn with
  | nil => rfl
  | append_singleton inserted c ih =>
    rw [List.map_append, List.map_singleton, entries_ofList_concat, entries_ofList_concat, ih,
      insertEntry_map h]

theorem find?_of_mem (h : (cs.entries.map Capture.name).Nodup)
    (hc : c ∈ cs.entries) : cs.find? c.name = some c := by
  obtain ⟨es⟩ := cs
  change es.find? _ = _
  induction es with
  | nil => exact absurd hc List.not_mem_nil
  | cons e es ih =>
    rw [List.map_cons, List.nodup_cons] at h
    rcases List.mem_cons.mp hc with rfl | hm
    · exact List.find?_cons_of_pos (decide_eq_true rfl)
    · have hne : e.name ≠ c.name := fun he => h.1 (he ▸ List.mem_map_of_mem hm)
      rw [List.find?_cons_of_neg (by rw [decide_eq_false hne]; exact Bool.false_ne_true)]
      exact ih h.2 hm

/-- What captures have to do with the sequence of all that was inserted into them. -/
structure Records (inserted : List Capture) (cs : Captures) : Prop where
  mem_iff (name : Text) :
    name ∈ cs.entries.map Capture.name ↔ name ∈ inserted.map Capture.name
  ordered : (cs.entries.map Capture.name).Pairwise fun a b =>
    (inserted.map Capture.name).idxOf a < (inserted.map Capture.name).idxOf b
  find?_last (before : List Capture) (c : Capture) (after : List Capture) :
    inserted = before ++ c :: after → c.name ∉ after.map Capture.name → cs.find? c.name = some c

theorem Records.empty : Records [] empty where
  mem_iff _ := Iff.rfl
  ordered := List.Pairwise.nil
  find?_last before c after h := by
    rw [List.nil_eq, List.append_eq_nil_iff] at h
    cases h.2

theorem Records.insert (h : Records inserted cs) (c : Capture) :
    Records (inserted ++ [c]) (cs.insert c) where
  mem_iff name := by
    change name ∈ (insertEntry c cs.entries).map Capture.name ↔ _
    rw [map_name_insertEntry, List.map_append, List.mem_append, List.map_singleton, ← h.mem_iff]
    split
    case isTrue hc =>
      refine ⟨Or.inl, ?_⟩
      rintro (hm | hm)
      · exact hm
      · rwa [List.mem_singleton.mp hm]
    case isFalse => rw [List.mem_append]
  ordered := by
    change ((insertEntry c cs.entries).map Capture.name).Pairwise _
    have hkept : (cs.entries.map Capture.name).Pairwise fun a b =>
        ((inserted ++ [c]).map Capture.name).idxOf a <
          ((inserted ++ [c]).map Capture.name).idxOf b := by
      refine h.ordered.imp_of_mem fun {a b} ha hb hlt => ?_
      rw [List.map_append, List.idxOf_append_of_mem ((h.mem_iff a).mp ha),
        List.idxOf_append_of_mem ((h.mem_iff b).mp hb)]
      exact hlt
    rw [map_name_insertEntry]
    split
    case isTrue => exact hkept
    case isFalse hc =>
      refine List.pairwise_append.mpr ⟨hkept, List.pairwise_singleton _ _, ?_⟩
      rintro a ha b hb
      obtain rfl := List.mem_singleton.mp hb
      have ha' := (h.mem_iff a).mp ha
      rw [List.map_append, List.idxOf_append_of_mem ha',
        List.idxOf_append_of_notMem (mt (h.mem_iff _).mpr hc)]
      exact Nat.lt_add_right _ (List.idxOf_lt_length_of_mem ha')
  find?_last before d after heq hlast := by
    change (insertEntry c cs.entries).find? _ = _
    rw [find?_insertEntry]
    rcases List.eq_nil_or_concat after with rfl | ⟨after, e, rfl⟩
    · obtain ⟨-, hd⟩ := List.append_inj' heq rfl
      cases hd
      exact if_pos rfl
    · rw [List.concat_eq_append, ← List.cons_append, ← List.append_assoc] at heq
      obtain ⟨hinserted, he⟩ := List.append_inj' heq rfl
      cases he
      rw [List.concat_eq_append, List.map_append, List.mem_append, not_or] at hlast
      rw [if_neg fun hname => hlast.2 (List.mem_singleton.mpr hname.symm)]
      exact h.find?_last before d after hinserted hlast.1

theorem records_ofList (inserted : List Capture) : Records inserted (ofList inserted) := by
  induction inserted using List.reverseRecOn with
  | nil => exact Records.empty
  | append_singleton inserted c ih =>
    rw [ofList, List.foldl_append]
    exact ih.insert c

namespace Records

theorem nodup (h : Records inserted cs) : (cs.entries.map Capture.name).Nodup := by
  refine h.ordered.imp fun {a b} hlt => ?_
  rintro rfl
  exact Nat.lt_irrefl _ hlt

theorem find?_eq_none_iff (h : Records inserted cs) (name : Text) :
    cs.find? name = none ↔ name ∉ inserted.map Capture.name := by
  rw [← h.mem_iff, find?, List.find?_eq_none]
  simp

theorem size_eq (h : Records inserted cs) :
    cs.size = (inserted.map Capture.name).toFinset.card := by
  have hnames : (cs.entries.map Capture.name).toFinset = (inserted.map Capture.name).toFinset := by
    ext name
    rw [List.mem_toFinset, List.mem_toFinset, h.mem_iff]
  rw [← hnames, List.toFinset_card_of_nodup h.nodup, List.length_map]
  rfl

end Records

theorem find?_ofList_of_last {k : Nat} (hk : inserted[k]? = some c)
    (last : c.name ∉ (inserted.map Capture.name).drop (k + 1)) :
    (ofList inserted).find? c.name = some c := by
  obtain ⟨hlt, rfl⟩ := List.getElem?_eq_some_iff.mp hk
  apply (records_ofList inserted).find?_last (inserted.take k) _ (inserted.drop (k + 1))
  · rw [← List.drop_eq_getElem_cons hlt, List.take_append_drop]
  · rwa [List.map_drop]

end Captures

end LinkTemplate
