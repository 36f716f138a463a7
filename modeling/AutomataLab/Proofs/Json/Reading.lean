import AutomataLab.Json.Reader
import AutomataLab.Json.Writer

/-!
# What is written can be read

A text that was written for a value gives the value back, as long as there is no numeral in it and
it is not nested too deep (`read_pretty`).

Below the values there are the strings. However a character is written, escaped or not, the scanner
makes its code point of it (`scanString_escape`), and a row of code points has no halves of pairs to
join (`joinUnits_toNat`). Above the strings it does not matter how the text is cut into tokens:
`run s l` is the state of the reader after the text `l`, and each lemma on it takes off what stands
in front. A value that stands in front of any text is read into the place where the reader is
(`ReadAt`); this goes by induction on the value, and over its parts from the left.
-/

namespace AutomataLab.Json

theorem toList_append_ofList (s : String) (l : List Char) :
    (s ++ String.ofList l).toList = s.toList ++ l := by
  rw [String.toList_append, String.toList_ofList]

/-! ## Strings -/

namespace Token

theorem scanString_escaped {e : Char} {u : Nat} (hu : escaped? e = some u) (l : List Char) :
    scanString ('\\' :: e :: l) = (scanString l).map fun r => (u :: r.1, r.2) := by
  -- the only escape of several characters has a case of its own
  have he : e ≠ 'u' := by
    rintro rfl
    simp [escaped?] at hu
  rw [scanString]
  · rw [hu]
    cases scanString l <;> rfl
  · rintro a b c d rest h -
    exact he h

theorem scanString_unit {a b c d : Char} {u : Nat} (hu : unit? a b c d = some u) (l : List Char) :
    scanString ('\\' :: 'u' :: a :: b :: c :: d :: l)
      = (scanString l).map fun r => (u :: r.1, r.2) := by
  rw [scanString, hu]
  cases scanString l <;> rfl

theorem scanString_plain {c : Char} (hc : ¬c.toNat < 0x20) (hquote : c ≠ '"') (hback : c ≠ '\\')
    (l : List Char) :
    scanString (c :: l) = (scanString l).map fun r => (c.toNat :: r.1, r.2) := by
  rw [scanString]
  · rw [if_neg (by simp [hc, hback])]
  · exact hquote
  · rintro a b c d rest h -
    exact hback h
  · rintro e rest h -
    exact hback h

/-- The last two digits of an escaped control are those of its code point. -/
theorem unit?_toDigits : ∀ n < 0x10, Nat.toDigits 16 n = [Nat.digitChar n]
    ∧ unit? '0' '0' '0' (Nat.digitChar n) = some n
    ∧ Nat.toDigits 16 (0x10 + n) = ['1', Nat.digitChar n]
    ∧ unit? '0' '0' '1' (Nat.digitChar n) = some (0x10 + n) := by
  decide

/-- **However a character is written, its code point is read.** -/
theorem scanString_escape (c : Char) (l : List Char) :
    scanString ((escape c).toList ++ l) = (scanString l).map fun r => (c.toNat :: r.1, r.2) := by
  unfold escape
  split
  · exact scanString_escaped (e := '"') rfl l
  · exact scanString_escaped (e := '\\') rfl l
  · exact scanString_escaped (e := 'b') rfl l
  · exact scanString_escaped (e := 'f') rfl l
  · exact scanString_escaped (e := 'n') rfl l
  · exact scanString_escaped (e := 'r') rfl l
  · exact scanString_escaped (e := 't') rfl l
  · next hquote hback _ _ _ _ _ =>
    split
    · next hlow =>
      obtain ⟨hdigits, hunit, -⟩ := unit?_toDigits c.toNat hlow
      -- the escape of a low control: three zeros and one digit
      change scanString (("\\u000" ++ String.ofList _).toList ++ l) = _
      rw [hdigits, toList_append_ofList]
      exact scanString_unit hunit l
    · split
      · next hhigh hlow =>
        obtain ⟨n, hn⟩ := Nat.exists_eq_add_of_le (Nat.le_of_not_lt hhigh)
        obtain ⟨-, -, hdigits, hunit⟩ := unit?_toDigits n (by omega)
        -- the escape of the other controls: two zeros and two digits
        change scanString (("\\u00" ++ String.ofList _).toList ++ l) = _
        rw [hn, hdigits, toList_append_ofList]
        exact scanString_unit hunit l
      · next hcontrol =>
        rw [Char.toString, String.toList_singleton]
        exact scanString_plain hcontrol hquote hback l

theorem scanString_quote (t l : List Char) :
    scanString ((String.join (t.map escape)).toList ++ '"' :: l) = some (t.map Char.toNat, l) := by
  rw [String.toList_join, List.flatMap_map]
  induction t with
  | nil => rfl
  | cons c rest ih =>
    rw [List.flatMap_cons, List.append_assoc, scanString_escape, ih]
    rfl

theorem isHighHalf_toNat (c : Char) : isHighHalf c.toNat = false := by
  -- the halves of pairs are the code points that no character has
  have h : c.toNat < 0xd800 ∨ 0xdfff < c.toNat ∧ c.toNat < 0x110000 := c.valid
  rw [isHighHalf, Bool.and_eq_false_iff, decide_eq_false_iff_not, decide_eq_false_iff_not]
  omega

theorem isLowHalf_toNat (c : Char) : isLowHalf c.toNat = false := by
  have h : c.toNat < 0xd800 ∨ 0xdfff < c.toNat ∧ c.toNat < 0x110000 := c.valid
  rw [isLowHalf, Bool.and_eq_false_iff, decide_eq_false_iff_not, decide_eq_false_iff_not]
  omega

/-- No character is half of a pair. -/
theorem joinUnits_toNat (l : List Char) : joinUnits (l.map Char.toNat) = some l := by
  induction l with
  | nil => rfl
  | cons c rest ih =>
    cases rest with
    | nil => simp [joinUnits, isHighHalf_toNat, isLowHalf_toNat]
    | cons d rest =>
      rw [List.map_cons] at ih ⊢
      rw [List.map_cons, joinUnits, if_neg (by simp [isHighHalf_toNat]),
        if_neg (by simp [isLowHalf_toNat]), ih, Option.map_some, Char.ofNat_toNat]

theorem scan_quote (s : String) (l : List Char) :
    scan ((quote s).toList ++ l) = some (string (some s), l) := by
  have hscan : scan ('"' :: ((String.join (s.toList.map escape)).toList ++ '"' :: l))
      = some (string (some s), l) := by
    rw [scan, scanString_quote, Option.map_some, joinUnits_toNat, Option.map_some,
      String.ofList_toList]
  simpa [quote] using hscan

/-! ## Cutting a text -/

theorem ofText_blank {c : Char} (hc : isBlank c = true) (l : List Char) :
    ofText (c :: l) = ofText l := by
  rw [ofText, if_pos hc]

theorem ofText_scan {c : Char} {l r : List Char} {t : Token} (hc : isBlank c = false)
    (h : scan (c :: l) = some (t, r)) : ofText (c :: l) = t :: ofText r := by
  rw [ofText, if_neg (by simp [hc])]
  split
  · next hnone => exact absurd (h.symm.trans hnone) (by simp)
  · next hsome =>
    obtain ⟨rfl, rfl⟩ := Prod.mk.inj (Option.some.inj (h.symm.trans hsome))
    rfl

end Token

/-- The reader after a text. -/
def run (s : State) (l : List Char) : State := (Token.ofText l).foldl State.feed s

/-- With the next token, whatever it is but the end of an array, the reader begins a value in its
place. -/
def Expects (s : State) (c : Context) : Prop := ∀ t, t ≠ .endArray → s.feed t = c.start t

section

variable {s : State} {c : Context} {l r : List Char} {a : Char} {t : Token}

theorem expects_value : Expects (.value c) c := fun _ _ => rfl

theorem expects_firstItem : Expects (.firstItem c) (.inArray c []) := by
  intro t ht
  cases t <;> first | rfl | exact absurd rfl ht

theorem run_nil : run s [] = s := by
  rw [run, Token.ofText, List.foldl_nil]

theorem run_blank (ha : Token.isBlank a = true) : run s (a :: l) = run s l := by
  rw [run, Token.ofText_blank ha, run]

theorem run_scan (ha : Token.isBlank a = false) (h : Token.scan (a :: l) = some (t, r)) :
    run s (a :: l) = run (s.feed t) r := by
  rw [run, Token.ofText_scan ha h, List.foldl_cons, run]

theorem run_start (hs : Expects s c) (ha : Token.isBlank a = false)
    (h : Token.scan (a :: l) = some (t, r)) (ht : t ≠ .endArray) :
    run s (a :: l) = run (c.start t) r := by
  rw [run_scan ha h, hs t ht]

theorem run_newline {level : Nat} : run s ((newline level).toList ++ l) = run s l := by
  have hspaces : ∀ n, run s (List.replicate n ' ' ++ l) = run s l := by
    intro n
    induction n with
    | zero => rfl
    | succ n ih => rw [List.replicate_succ, List.cons_append, run_blank rfl, ih]
  rw [newline, toList_append_ofList, List.append_assoc]
  exact (run_blank rfl).trans (hspaces _)

theorem run_quote {name : String} :
    run s ((quote name).toList ++ l) = run (s.feed (.string (some name))) l := by
  have hscan := Token.scan_quote name l
  have hquote : (quote name).toList = '"' :: (quote name).toList.tail := by simp [quote]
  rw [hquote, List.cons_append] at hscan ⊢
  exact run_scan rfl hscan

end

/-! ## The layout of a text -/

theorem toList_intercalate_cons {sep first : String} {rest : List String} :
    (sep.intercalate (first :: rest)).toList
      = first.toList ++ rest.flatMap fun part => sep.toList ++ part.toList := by
  induction rest generalizing first with
  | nil => simp
  | cons part rest ih => simp [String.intercalate_cons_cons, ih]

/-- The parts of an array or object that come after the first one. -/
def laterParts (level : Nat) (parts : List String) : List Char :=
  parts.flatMap fun part => ',' :: ((newline level).toList ++ part.toList)

theorem laterParts_cons {level : Nat} {part : String} {rest : List String} :
    laterParts level (part :: rest)
      = ',' :: ((newline level).toList ++ (part.toList ++ laterParts level rest)) := by
  rw [laterParts, List.flatMap_cons, List.cons_append, List.append_assoc, laterParts]

theorem toList_block_cons {opening closing first : String} {level : Nat} {rest : List String} :
    (block opening closing level (first :: rest)).toList
      = opening.toList ++ ((newline (level + 1)).toList ++ (first.toList
        ++ (laterParts (level + 1) rest ++ ((newline level).toList ++ closing.toList)))) := by
  rw [block, if_neg (List.cons_ne_nil _ _)]
  simp only [String.toList_append, toList_intercalate_cons, List.append_assoc]
  rfl

/-! ## Values -/

/-- A constant, a text, or a list or an object of such values, nested at most to a depth. -/
inductive Plain : Nat → Json → Prop
  | null {n : Nat} : Plain n null
  | bool {n : Nat} {b : Bool} : Plain n (bool b)
  | string {n : Nat} {s : String} : Plain n (string s)
  | array {n : Nat} {items : List Json} : (∀ v ∈ items, Plain n v) → Plain (n + 1) (array items)
  | object {n : Nat} {fields : List (String × Json)} :
      (∀ e ∈ fields, Plain n e.2) → Plain (n + 1) (object fields)

theorem Plain.array_map {α : Type} {n : Nat} {encode : α → Json} {l : List α}
    (h : ∀ a ∈ l, Plain n (encode a)) : Plain (n + 1) (.array (l.map encode)) :=
  .array (List.forall_mem_map.2 h)

theorem Plain.object_map {α : Type} {n : Nat} {name : α → String} {encode : α → Json} {l : List α}
    (h : ∀ a ∈ l, Plain n (encode a)) :
    Plain (n + 1) (.object (l.map fun a => (name a, encode a))) :=
  .object (List.forall_mem_map.2 h)

/-- The value is read into its place, from any level of the text and with anything behind it. -/
def ReadAt (n : Nat) (v : Json) : Prop :=
  ∀ (level : Nat) (c : Context) (s : State) (l : List Char), c.depth + n ≤ maxDepth →
    Expects s c → run s ((prettyAt level v).toList ++ l) = run (c.fill v) l

section

variable {n level : Nat} {up : Context} {s : State} {l : List Char}

theorem close_eq_fill {v : Json} (hdepth : up.depth + (n + 1) ≤ maxDepth) :
    up.close v = up.fill v := by
  rw [Context.close, if_pos (by omega)]

theorem run_item {before : List Json} {v : Json} (hdepth : up.depth + (n + 1) ≤ maxDepth)
    (hv : ReadAt n v) (hs : Expects s (.inArray up before)) :
    run s ((prettyAt level v).toList ++ l) = run (.afterItem up (v :: before)) l := by
  -- inside the array the reader is one level deeper
  refine hv level _ s l ?_ hs
  rw [Context.depth]
  omega

theorem run_laterItems {items before : List Json} (hdepth : up.depth + (n + 1) ≤ maxDepth)
    (hitems : ∀ v ∈ items, ReadAt n v) :
    run (.afterItem up before) (laterParts level (prettyItems level items) ++ l)
      = run (.afterItem up (items.reverse ++ before)) l := by
  induction items generalizing before with
  | nil => rfl
  | cons v rest ih =>
    obtain ⟨hv, hrest⟩ := List.forall_mem_cons.1 hitems
    -- what has been read is kept with the latest item in front
    rw [prettyItems, laterParts_cons, List.reverse_cons, List.append_assoc, List.singleton_append,
      ← ih hrest, List.cons_append, List.append_assoc, List.append_assoc]
    calc run (.afterItem up before) (',' :: _)
      _ = run (.value (.inArray up before)) _ := (run_scan rfl rfl).trans run_newline
      _ = run (.afterItem up (v :: before)) _ := run_item hdepth hv expects_value

theorem readAt_array {items : List Json} (hitems : ∀ v ∈ items, ReadAt n v) :
    ReadAt (n + 1) (array items) := by
  intro level c s l hdepth hs
  rw [prettyAt, ← close_eq_fill hdepth]
  cases items with
  | nil =>
    rw [prettyItems, block, if_pos rfl]
    calc run s ('[' :: ']' :: l)
      _ = run (.firstItem c) (']' :: l) := run_start (t := .beginArray) hs rfl rfl (by simp)
      _ = run (c.close (array [])) l := run_scan (t := .endArray) rfl rfl
  | cons v rest =>
    obtain ⟨hv, hrest⟩ := List.forall_mem_cons.1 hitems
    rw [prettyItems, toList_block_cons]
    simp only [List.append_assoc]
    calc run s ('[' :: _)
      _ = run (.firstItem c) _ :=
        (run_start (t := .beginArray) hs rfl rfl (by simp)).trans run_newline
      _ = run (.afterItem c [v]) _ := run_item hdepth hv expects_firstItem
      _ = run (.afterItem c (rest.reverse ++ [v])) (']' :: l) :=
        (run_laterItems hdepth hrest).trans run_newline
      _ = run (c.close (array (rest.reverse ++ [v]).reverse)) l :=
        run_scan (t := .endArray) rfl rfl
      _ = run (c.close (array (v :: rest))) l := by simp

theorem run_field {before : List (String × Json)} {e : String × Json}
    (hdepth : up.depth + (n + 1) ≤ maxDepth) (he : ReadAt n e.2)
    (hs : s.feed (.string (some e.1)) = .colon up before (some e.1)) :
    run s ((s!"{quote e.1}: {prettyAt level e.2}").toList ++ l)
      = run (.afterField up (e :: before)) l := by
  have htext : (s!"{quote e.1}: {prettyAt level e.2}").toList ++ l
      = (quote e.1).toList ++ ':' :: ' ' :: ((prettyAt level e.2).toList ++ l) := by
    simp [toString]
  have hcontext : (Context.inObject up before (some e.1)).depth + n ≤ maxDepth := by
    rw [Context.depth]
    omega
  rw [htext, run_quote, hs]
  calc run (.colon up before (some e.1)) (':' :: ' ' :: _)
    _ = run (.value (.inObject up before (some e.1))) _ := (run_scan rfl rfl).trans (run_blank rfl)
    _ = run (.afterField up (e :: before)) l := he level _ _ l hcontext expects_value

theorem run_laterFields {fields before : List (String × Json)}
    (hdepth : up.depth + (n + 1) ≤ maxDepth) (hfields : ∀ e ∈ fields, ReadAt n e.2) :
    run (.afterField up before) (laterParts level (prettyFields level fields) ++ l)
      = run (.afterField up (fields.reverse ++ before)) l := by
  induction fields generalizing before with
  | nil => rfl
  | cons e rest ih =>
    obtain ⟨he, hrest⟩ := List.forall_mem_cons.1 hfields
    rw [prettyFields, laterParts_cons, List.reverse_cons, List.append_assoc, List.singleton_append,
      ← ih hrest, List.cons_append, List.append_assoc, List.append_assoc]
    calc run (.afterField up before) (',' :: _)
      _ = run (.nextName up before) _ := (run_scan rfl rfl).trans run_newline
      _ = run (.afterField up (e :: before)) _ := run_field hdepth he rfl

theorem readAt_object {fields : List (String × Json)} (hfields : ∀ e ∈ fields, ReadAt n e.2) :
    ReadAt (n + 1) (object fields) := by
  intro level c s l hdepth hs
  rw [prettyAt, ← close_eq_fill hdepth]
  cases fields with
  | nil =>
    rw [prettyFields, block, if_pos rfl]
    calc run s ('\x7b' :: '\x7d' :: l)
      _ = run (.firstName c) ('\x7d' :: l) := run_start (t := .beginObject) hs rfl rfl (by simp)
      _ = run (c.close (object [])) l := run_scan (t := .endObject) rfl rfl
  | cons e rest =>
    obtain ⟨he, hrest⟩ := List.forall_mem_cons.1 hfields
    rw [prettyFields, toList_block_cons]
    simp only [List.append_assoc]
    calc run s ('\x7b' :: _)
      _ = run (.firstName c) _ :=
        (run_start (t := .beginObject) hs rfl rfl (by simp)).trans run_newline
      _ = run (.afterField c [e]) _ := run_field hdepth he rfl
      _ = run (.afterField c (rest.reverse ++ [e])) ('\x7d' :: l) :=
        (run_laterFields hdepth hrest).trans run_newline
      _ = run (c.close (object (rest.reverse ++ [e]).reverse)) l :=
        run_scan (t := .endObject) rfl rfl
      _ = run (c.close (object (e :: rest))) l := by simp

theorem readAt_of_plain {v : Json} (h : Plain n v) : ReadAt n v := by
  induction h with
  | null =>
    intro level c s l _ hs
    simp only [prettyAt, compact]
    change run s ('n' :: 'u' :: 'l' :: 'l' :: l) = _
    exact run_start (t := .scalar Json.null) hs rfl rfl (by simp)
  | @bool _ b =>
    intro level c s l _ hs
    cases b with
    | true =>
      simp only [prettyAt, compact]
      change run s ('t' :: 'r' :: 'u' :: 'e' :: l) = _
      exact run_start (t := .scalar (Json.bool true)) hs rfl rfl (by simp)
    | false =>
      simp only [prettyAt, compact]
      change run s ('f' :: 'a' :: 'l' :: 's' :: 'e' :: l) = _
      exact run_start (t := .scalar (Json.bool false)) hs rfl rfl (by simp)
  | @string _ t =>
    intro level c s l _ hs
    change run s ((quote t).toList ++ l) = _
    rw [run_quote, hs _ (by simp)]
    rfl
  | array _ ih => exact readAt_array ih
  | object _ ih => exact readAt_object ih

end

/-- **A text that was written for a value is read as the value.** -/
theorem read_pretty {v : Json} (h : Plain maxDepth v) : read v.pretty = (v, false) := by
  have hrun : run (.value .top) v.pretty.toList = .finished v false := by
    -- the whole text is a value at the top, with nothing behind it
    have hat := readAt_of_plain h 0 .top (.value .top) [] (by simp [Context.depth]) expects_value
    rwa [List.append_nil, run_nil] at hat
  unfold run at hrun
  rw [read, hrun]

end AutomataLab.Json
