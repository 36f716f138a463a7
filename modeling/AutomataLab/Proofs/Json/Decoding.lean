import AutomataLab.Json.Record
import AutomataLab.Proofs.Checks
import AutomataLab.Proofs.Json.Reading

/-!
# What is written can be taken apart

Decoders undo what was written part by part: a list gives the members back if each of them can be
had back (`list_map`), an object that was written from a map gives the map (`map_entries`). The
fields of a record may come in any order, which makes reading them a search. If they come in the
order of the parts there is nothing to search for, and the object is read like the array of its
values (`readObject_zip`).

The other way round, not every record is read from some value. What all parts keep holds of what is
read, in whichever form and order they come (`decoder_invariant`).
-/

namespace AutomataLab

namespace Json

theorem areReadable_iff {items : List Json} :
    areReadable items = true ↔ ∀ v ∈ items, v.isReadable = true := by
  induction items with
  | nil => simp [areReadable]
  | cons v rest ih => rw [areReadable, Bool.and_eq_true, ih, List.forall_mem_cons]

theorem haveReadableValues_iff {fields : List (String × Json)} :
    haveReadableValues fields = true ↔ ∀ e ∈ fields, e.2.isReadable = true := by
  induction fields with
  | nil => simp [haveReadableValues]
  | cons e rest ih => rw [haveReadableValues, Bool.and_eq_true, ih, List.forall_mem_cons]

theorem Plain.isReadable {n : Nat} {v : Json} (h : Plain n v) : v.isReadable = true := by
  induction h with
  | null => rfl
  | bool => rfl
  | string => rfl
  | array _ ih => exact areReadable_iff.2 ih
  | object _ ih => exact haveReadableValues_iff.2 ih

theorem plain_ofStrings {n : Nat} {l : List String} : Plain (n + 1) (ofStrings l) :=
  .array_map fun _ _ => .string

end Json

namespace Decoder

theorem mismatch_ne_ok {α : Type} (v : Json) (a : α) : mismatch v ≠ .ok a := by
  cases v <;> simp [mismatch]

/-- What is taken from the text of a value is taken from the value. -/
theorem readText_pretty {α : Type} {decode : Decoder α} {v : Json}
    (h : Json.Plain Json.maxDepth v) : readText decode v.pretty = decode v := by
  -- all of the text is read, so nothing is left that could be refused
  rw [readText, Json.read_pretty h]
  dsimp only
  cases decode v <;> rfl

/-- What is taken from any text is taken from the value that is read. -/
theorem decode_of_readText {α : Type} {decode : Decoder α} {text : String} {a : α}
    (h : readText decode text = .ok a) : decode (Json.read text).1 = .ok a := by
  obtain ⟨b, hb, h⟩ := bind_eq_ok_iff.1 h
  obtain ⟨-, h⟩ := guard_eq_ok_iff.1 h
  rwa [pure_eq_ok_iff.1 h]

/-- What is taken from a list item by item. -/
theorem list_map_eq {α β : Type} {decode : Decoder β} {encode : α → Json} {f : α → β} {l : List α}
    (h : ∀ a ∈ l, decode (encode a) = .ok (f a)) :
    list decode (.array (l.map encode)) = .ok (l.map f) := by
  rw [list]
  induction l with
  | nil => rfl
  | cons a rest ih =>
    obtain ⟨ha, hrest⟩ := List.forall_mem_cons.1 h
    rw [List.map_cons, List.mapM_cons, ha, ih hrest]
    rfl

theorem list_map {α : Type} {decode : Decoder α} {encode : α → Json} {l : List α}
    (h : ∀ a ∈ l, decode (encode a) = .ok a) : list decode (.array (l.map encode)) = .ok l :=
  (list_map_eq (f := id) h).trans (by rw [List.map_id])

theorem list_ofStrings {l : List String} : list string (.ofStrings l) = .ok l :=
  list_map fun _ _ => rfl

/-- What is in a list was taken from some item of it. -/
theorem exists_of_mem_list {α : Type} {decode : Decoder α} {v : Json} {l : List α}
    (h : list decode v = .ok l) : ∀ a ∈ l, ∃ w, decode w = .ok a := by
  unfold list at h
  split at h
  · next items =>
    induction items generalizing l with
    | nil =>
      obtain rfl := pure_eq_ok_iff.1 h
      exact fun a ha => absurd ha List.not_mem_nil
    | cons w rest ih =>
      rw [List.mapM_cons] at h
      obtain ⟨b, hb, h⟩ := bind_eq_ok_iff.1 h
      obtain ⟨m, hm, rfl⟩ := bind_pure_eq_ok_iff.1 h
      exact List.forall_mem_cons.2 ⟨⟨w, hb⟩, ih hm⟩
  · exact absurd h (mismatch_ne_ok _ _)

section

variable {κ ν μ : Type} [Ord κ] [Std.TransOrd κ] [Std.LawfulEqOrd κ] (name : κ → String)
  {key : String → Except LoadError κ} (encode : ν → Json) {value : Decoder μ} (f : ν → μ)

theorem entriesInto_map {l : List (κ × ν)} {m : SortedMap κ μ}
    (hkey : ∀ e ∈ l, key (name e.1) = .ok e.1)
    (hvalue : ∀ e ∈ l, value (encode e.2) = .ok (f e.2)) :
    entriesInto key value m (l.map fun e => (name e.1, encode e.2))
      = .ok (l.foldl (fun m e => m.insert e.1 (f e.2)) m) := by
  induction l generalizing m with
  | nil => rfl
  | cons e rest ih =>
    obtain ⟨hk, hkeys⟩ := List.forall_mem_cons.1 hkey
    obtain ⟨hv, hvalues⟩ := List.forall_mem_cons.1 hvalue
    rw [List.map_cons, entriesInto, hk, hv]
    exact ih hkeys hvalues

/-- An object with a field for each entry of a map is taken for the map, each value for what its
decoder makes of it. -/
theorem map_entries [DecidableEq κ] {m : SortedMap κ ν}
    (hkey : ∀ e ∈ m.entries, key (name e.1) = .ok e.1)
    (hvalue : ∀ e ∈ m.entries, value (encode e.2) = .ok (f e.2)) :
    map key value (.object (m.entries.map fun e => (name e.1, encode e.2)))
      = .ok (m.map fun _ v => f v) := by
  rw [map, entriesInto_map name encode f hkey hvalue]
  congr 1
  ext1 k
  -- each key is written once, so the order in which the fields come does not matter
  have hfold := SortedMap.foldl_entries (fun n : SortedMap κ μ => n.get? k) (fun v _ => some (f v))
    (f := fun n e => n.insert e.1 (f e.2)) (k := k) (by simp) (fun n e he => by simp [Ne.symm he])
    m ∅
  rw [hfold, SortedMap.get?_map]
  cases m.get? k <;> rfl

end

end Decoder

namespace RecordField

section

variable {ρ : Type} {before after : List (RecordField ρ)}

theorem find?_part {f : RecordField ρ} (hnodup : ((before ++ f :: after).map (·.name)).Nodup) :
    (before ++ f :: after).find? (·.name = f.name) = some f := by
  rw [List.map_append, List.map_cons, List.nodup_append] at hnodup
  have hnone : before.find? (·.name = f.name) = none := by
    refine List.find?_eq_none.2 fun g hg => ?_
    simpa using hnodup.2.2 g.name (List.mem_map_of_mem hg) f.name List.mem_cons_self
  rw [List.find?_append, hnone, Option.none_or, List.find?_cons_of_pos (by simp)]

/-- With the values of some parts behind it, reading goes on with the others. -/
theorem readObject_zip_later {seen : List String} {r : ρ} {items : List Json} (surplus : LoadError)
    (hnodup : ((before ++ after).map (·.name)).Nodup) (hlength : items.length = after.length)
    (hitems : ∀ v ∈ items, v.isReadable = true) (hbefore : ∀ f ∈ before, f.name ∈ seen)
    (hafter : ∀ f ∈ after, f.name ∉ seen) :
    readObject (before ++ after) seen r ((after.map (·.name)).zip items)
      = readArray surplus after r items := by
  induction items generalizing before after seen r with
  | nil =>
    -- all parts have come, so no required one is missing
    obtain rfl := List.length_eq_zero_iff.1 hlength.symm
    have hnone : (before ++ []).find? (fun f : RecordField ρ => f.required && f.name ∉ seen)
        = none := by
      refine List.find?_eq_none.2 fun f hf => ?_
      rw [List.append_nil] at hf
      simp [hbefore f hf]
    rw [List.zip_nil_right, readObject, hnone, readArray]
  | cons v rest ih =>
    obtain ⟨hv, hrest⟩ := List.forall_mem_cons.1 hitems
    cases after with
    | nil => exact absurd hlength (by simp)
    | cons f after =>
      have hnames : f.name ∉ after.map (·.name) := by
        rw [List.map_append, List.map_cons] at hnodup
        exact (List.nodup_cons.1 (List.nodup_append.1 hnodup).2.1).1
      -- once this part is read it is behind, and the induction has the rest
      have hnext : ∀ r', readObject (before ++ f :: after) (f.name :: seen) r'
          ((after.map (·.name)).zip rest) = readArray surplus after r' rest := by
        intro r'
        rw [List.append_cons] at hnodup ⊢
        refine ih hnodup (by simpa using hlength) hrest ?_ ?_
        · intro g hg
          rcases List.mem_append.1 hg with hg | hg
          · exact List.mem_cons_of_mem _ (hbefore g hg)
          · rw [List.mem_singleton.1 hg]
            exact List.mem_cons_self
        · intro g hg hseen
          rcases List.mem_cons.1 hseen with hname | hseen
          · exact hnames (hname ▸ List.mem_map_of_mem hg)
          · exact hafter g (List.mem_cons_of_mem f hg) hseen
      rw [List.map_cons, List.zip_cons_cons, readObject, find?_part hnodup, readArray]
      · dsimp only
        rw [if_neg (hafter f List.mem_cons_self)]
        simp only [hnext]
      · -- the value can be read, so it is none that is refused before any part is asked
        rintro w rfl
        exact absurd hv (by simp [Json.isReadable])

/-- **An object with the fields in the order of the parts is read like the array of the values.** -/
theorem readObject_zip {parts : List (RecordField ρ)} {r : ρ} {items : List Json}
    (surplus : LoadError) (hnodup : (parts.map (·.name)).Nodup)
    (hlength : items.length = parts.length) (hitems : ∀ v ∈ items, v.isReadable = true) :
    readObject parts [] r ((parts.map (·.name)).zip items) = readArray surplus parts r items :=
  readObject_zip_later surplus hnodup hlength hitems (List.forall_mem_nil _) (by simp)

end

/-! ## What every part keeps -/

section

variable {ρ : Type} {P : ρ → Prop} {parts : List (RecordField ρ)} {surplus : LoadError} {r r' : ρ}

theorem readObject_invariant {seen : List String} {fields : List (String × Json)}
    (hparts : ∀ f ∈ parts, ∀ r v r', P r → f.read r v = .ok r' → P r') (hr : P r)
    (h : readObject parts seen r fields = .ok r') : P r' := by
  fun_induction readObject parts seen r fields with
  -- the cases that refuse give no record; the others read a part, pass over a field, or are done
  | case1 => exact absurd h (by simp)
  | case2 => exact Except.ok.inj h ▸ hr
  | case3 => exact absurd h (by simp)
  | case4 seen r name v rest _ hnone ih =>
    obtain ⟨-, -, h⟩ := bind_eq_ok_iff.1 h
    exact ih hr h
  | case5 => exact absurd h (by simp)
  | case6 seen r name v rest _ f hfind _ ih =>
    obtain ⟨u, hu, h⟩ := bind_eq_ok_iff.1 h
    exact ih u (hparts f (List.mem_of_find?_eq_some hfind) r v u hr hu) h

theorem readArray_invariant {items : List Json}
    (hparts : ∀ f ∈ parts, ∀ r v r', P r → f.read r v = .ok r' → P r') (hr : P r)
    (h : readArray surplus parts r items = .ok r') : P r' := by
  fun_induction readArray surplus parts r items with
  | case1 => exact Except.ok.inj h ▸ hr
  | case2 => exact absurd h (by simp)
  | case3 => exact absurd h (by simp)
  -- a part that may be left out is passed over when the values are at an end
  | case4 f parts r _ ih => exact ih (fun g hg => hparts g (List.mem_cons_of_mem f hg)) hr h
  | case5 f parts r v rest ih =>
    obtain ⟨u, hu, h⟩ := bind_eq_ok_iff.1 h
    exact ih u (fun g hg => hparts g (List.mem_cons_of_mem f hg))
      (hparts f List.mem_cons_self r v u hr hu) h

/-- **What holds of the blank record and is kept by every part holds of what is read.** -/
theorem decoder_invariant {blank : ρ} {v : Json}
    (hparts : ∀ f ∈ parts, ∀ r v r', P r → f.read r v = .ok r' → P r') (hblank : P blank)
    (h : decoder parts blank surplus v = .ok r') : P r' := by
  unfold decoder at h
  split at h
  · exact readObject_invariant hparts hblank h
  · exact readArray_invariant hparts hblank h
  · exact absurd h (Decoder.mismatch_ne_ok _ _)

end

end RecordField

end AutomataLab
