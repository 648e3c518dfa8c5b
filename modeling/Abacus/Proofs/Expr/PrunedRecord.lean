import Abacus.Proofs.Expr.GoodRecord

/-!
# Records without further fields

A record may have more fields than its type asks for, in any order. Pruned of them at every level, it
is the record that is written for the tree it is read as, up to the order of the fields. Hence
writing and reading are inverse to each other, and two records are read as one tree exactly when
they are equal once they are pruned.
-/

namespace Abacus

open Answer

namespace Datum

/-- The fields that a record with this type has. -/
def fieldsOfType (type : Datum) : List String :=
  if type.isText "Literal" then ["type", "value"]
  else if type.isText "Variable" then ["type", "name"]
  else if type.isText "Plus" || type.isText "Multiply" then ["type", "left", "right"]
  else []

/-- The fields of a record that count; a mapping without a type has none. -/
def recognised (entries : List (Datum × Datum)) : List String :=
  (get? "type" entries).elim [] fieldsOfType

mutual

/-- The record with the fields that count and no others, at every level. -/
def pruned : Datum → Datum
  | .mapping entries => .mapping (prunedEntries (recognised entries) entries)
  | .view entries => .view (prunedEntries (recognised entries) entries)
  | d => d

/-- The first entry under each of the keys, in the order of the entries. -/
def prunedEntries (keys : List String) : List (Datum × Datum) → List (Datum × Datum)
  | [] => []
  | (k, v) :: rest =>
    match keys.find? fun key => k.isText key with
    | some key => (k, v.pruned) :: prunedEntries (keys.erase key) rest
    | none => prunedEntries keys rest

end

theorem prunedEntries_keep {keys : List String} {key : String} (h : key ∈ keys) (v : Datum)
    (rest : List (Datum × Datum)) : prunedEntries keys ((.text key, v) :: rest) =
      (.text key, v.pruned) :: prunedEntries (keys.erase key) rest := by
  have hfind : (keys.find? fun other => (Datum.text key).isText other) = some key := by
    cases hother : keys.find? fun other => (Datum.text key).isText other with
    | none => exact absurd (isText_iff.2 rfl) (List.find?_eq_none.1 hother key h)
    | some other =>
      have htext := List.find?_some (p := fun other => (Datum.text key).isText other) hother
      cases isText_iff.1 htext
      rfl
  rw [prunedEntries, hfind]

theorem prunedEntries_drop {keys : List String} {k : Datum} (h : ∀ key ∈ keys, k ≠ .text key)
    (v : Datum) (rest : List (Datum × Datum)) :
    prunedEntries keys ((k, v) :: rest) = prunedEntries keys rest := by
  have hfind : (keys.find? fun key => k.isText key) = none := by
    rw [List.find?_eq_none]
    exact fun key hkey htext => h key hkey (isText_iff.1 htext)
  rw [prunedEntries, hfind]

theorem get?_prunedEntries {keys : List String} {key : String} (h : key ∈ keys)
    (entries : List (Datum × Datum)) :
    get? key (prunedEntries keys entries) = (get? key entries).map pruned := by
  induction entries generalizing keys with
  | nil => rfl
  | cons entry entries ih =>
    obtain ⟨k, v⟩ := entry
    by_cases hk : ∃ other ∈ keys, k = .text other
    · obtain ⟨other, hother, rfl⟩ := hk
      rw [prunedEntries_keep hother]
      by_cases heq : other = key
      · subst heq
        rw [get?_cons_self, get?_cons_self, Option.map_some]
      · have hne : Datum.text other ≠ .text key := fun he => heq (Datum.text.inj he)
        rw [get?_cons_of_ne hne, get?_cons_of_ne hne]
        exact ih ((List.mem_erase_of_ne (Ne.symm heq)).2 h)
    · have hne : ∀ other ∈ keys, k ≠ .text other := fun other hother he => hk ⟨other, hother, he⟩
      rw [prunedEntries_drop hne, get?_cons_of_ne (hne key h)]
      exact ih h

theorem perm_prunedEntries {keys : List String} {entries : List (Datum × Datum)}
    (hn : keys.Nodup) (h : ∀ key ∈ keys, ∃ v, get? key entries = some v) :
    ((prunedEntries keys entries).map Prod.fst).Perm (keys.map .text) := by
  induction entries generalizing keys with
  | nil =>
    cases keys with
    | nil => exact List.Perm.refl _
    | cons key keys =>
      obtain ⟨v, hv⟩ := h key List.mem_cons_self
      cases hv
  | cons entry entries ih =>
    obtain ⟨k, v⟩ := entry
    by_cases hk : ∃ other ∈ keys, k = .text other
    · obtain ⟨other, hother, rfl⟩ := hk
      rw [prunedEntries_keep hother, List.map_cons]
      have hrest : ∀ key ∈ keys.erase other, ∃ v, get? key entries = some v := by
        intro key hkey
        obtain ⟨hne, hmem⟩ := (List.Nodup.mem_erase_iff hn).1 hkey
        obtain ⟨w, hw⟩ := h key hmem
        rw [get?_cons_of_ne fun he => hne (Datum.text.inj he).symm] at hw
        exact ⟨w, hw⟩
      have hperm := ih (hn.erase other) hrest
      exact (hperm.cons _).trans ((List.perm_cons_erase hother).map Datum.text).symm
    · have hne : ∀ other ∈ keys, k ≠ .text other := fun other hother he => hk ⟨other, hother, he⟩
      rw [prunedEntries_drop hne]
      refine ih hn fun key hkey => ?_
      obtain ⟨w, hw⟩ := h key hkey
      rw [get?_cons_of_ne (hne key hkey)] at hw
      exact ⟨w, hw⟩

theorem entries?_pruned {d : Datum} {entries : List (Datum × Datum)}
    (h : d.entries? = some entries) :
    d.pruned.entries? = some (prunedEntries (recognised entries) entries) := by
  cases d with
  | mapping es | view es =>
    cases h
    rfl
  | _ => cases h

/-! ## Pruned records -/

/-- The fields that count in a record of this type. -/
theorem recognised_of_type {d type : Datum} (h : d.field? "type" = some type) :
    ∃ entries, d.entries? = some entries ∧ recognised entries = fieldsOfType type := by
  obtain ⟨entries, hentries, htype⟩ := Option.bind_eq_some_iff.1 h
  refine ⟨entries, hentries, ?_⟩
  rw [recognised, htype, Option.elim_some]

theorem field?_pruned {d type : Datum} (h : d.field? "type" = some type) {key : String}
    (hkey : key ∈ fieldsOfType type) : d.pruned.field? key = (d.field? key).map pruned := by
  obtain ⟨entries, hentries, hfields⟩ := recognised_of_type h
  rw [field?_of_entries? (entries?_pruned hentries), field?_of_entries? hentries, hfields]
  exact get?_prunedEntries hkey entries

theorem field?_pruned_eq_some {d type : Datum} (h : d.field? "type" = some type) {key : String}
    (hkey : key ∈ fieldsOfType type) {x : Datum} (hx : d.field? key = some x) :
    d.pruned.field? key = some x.pruned := by
  rw [field?_pruned h hkey, hx, Option.map_some]

theorem nodup_fieldsOfType (type : Datum) : (fieldsOfType type).Nodup := by
  unfold fieldsOfType
  split_ifs <;> decide

theorem hasJust_pruned {d type : Datum} (h : d.field? "type" = some type)
    (hall : ∀ key ∈ fieldsOfType type, ∃ v, d.field? key = some v) :
    HasJust (fieldsOfType type) d.pruned := by
  obtain ⟨entries, hentries, hfields⟩ := recognised_of_type h
  simp only [field?_of_entries? hentries] at hall
  refine ⟨_, entries?_pruned hentries, ?_⟩
  rw [hfields]
  exact perm_prunedEntries (nodup_fieldsOfType type) hall

end Datum

namespace Expr

theorem fieldsOfType_recordType (o : Operator) :
    Datum.fieldsOfType (.text o.recordType) = ["type", "left", "right"] := by
  cases o <;> rfl

/-- A record of a tree has all the fields that count. -/
theorem Describes.exists_fields {d : Datum} {e : Expr} (h : Describes d e) :
    ∃ type : String, d.field? "type" = some (.text type) ∧
      ∀ key ∈ Datum.fieldsOfType (.text type), ∃ v, d.field? key = some v := by
  cases h with
  | literal ht hv =>
    exact ⟨_, ht, List.forall_mem_cons.2 ⟨⟨_, ht⟩, List.forall_mem_singleton.2 ⟨_, hv⟩⟩⟩
  | var ht hx hne =>
    exact ⟨_, ht, List.forall_mem_cons.2 ⟨⟨_, ht⟩, List.forall_mem_singleton.2 ⟨_, hx⟩⟩⟩
  | @binary d left right o l r ht hl hr dl dr =>
    refine ⟨_, ht, ?_⟩
    rw [fieldsOfType_recordType]
    exact List.forall_mem_cons.2 ⟨⟨_, ht⟩, List.forall_mem_cons.2 ⟨⟨_, hl⟩,
      List.forall_mem_singleton.2 ⟨_, hr⟩⟩⟩

theorem Describes.pruned {d : Datum} {e : Expr} (h : Describes d e) : Describes d.pruned e := by
  induction h with
  | literal ht hv =>
    exact .literal (Datum.field?_pruned_eq_some ht (by decide) ht)
      (Datum.field?_pruned_eq_some ht (by decide) hv)
  | var ht hx hne =>
    exact .var (Datum.field?_pruned_eq_some ht (by decide) ht)
      (Datum.field?_pruned_eq_some ht (by decide) hx) hne
  | @binary d left right o l r ht hl hr dl dr ihl ihr =>
    have hall : ∀ {key x}, key ∈ ["type", "left", "right"] → d.field? key = some x →
        d.pruned.field? key = some x.pruned := fun hkey =>
      Datum.field?_pruned_eq_some ht (by rwa [fieldsOfType_recordType])
    exact .binary (hall (by decide) ht) (hall (by decide) hl) (hall (by decide) hr) ihl ihr

/-! ## What a type tells of the tree -/

theorem type_unique {d : Datum} {type type' : String} (h : d.field? "type" = some (.text type))
    (h' : d.field? "type" = some (.text type')) : type = type' :=
  Datum.text.inj (Option.some.inj (h.symm.trans h'))

theorem Describes.of_type_literal {d : Datum} {e : Expr} (h : Describes d e)
    (ht : d.field? "type" = some (.text "Literal")) :
    ∃ v, d.field? "value" = some (.int v) ∧ e = .literal v := by
  cases h with
  | literal _ hv => exact ⟨_, hv, rfl⟩
  | var ht' => exact absurd (type_unique ht ht') (by decide)
  | @binary d left right o l r ht' =>
    exact absurd (type_unique ht ht') (by cases o <;> decide)

theorem Describes.of_type_variable {d : Datum} {e : Expr} (h : Describes d e)
    (ht : d.field? "type" = some (.text "Variable")) :
    ∃ x, d.field? "name" = some (.text x) ∧ e = .var x := by
  cases h with
  | literal ht' => exact absurd (type_unique ht ht') (by decide)
  | var _ hx => exact ⟨_, hx, rfl⟩
  | @binary d left right o l r ht' =>
    exact absurd (type_unique ht ht') (by cases o <;> decide)

theorem Describes.of_type_operator {d : Datum} {o : Operator} {e : Expr} (h : Describes d e)
    (ht : d.field? "type" = some (.text o.recordType)) :
    ∃ left right l r, d.field? "left" = some left ∧ d.field? "right" = some right ∧
      Describes left l ∧ Describes right r ∧ e = .binary o.symbol l r := by
  cases h with
  | literal ht' => exact absurd (type_unique ht' ht) (by cases o <;> decide)
  | var ht' => exact absurd (type_unique ht' ht) (by cases o <;> decide)
  | @binary d left right o' l r ht' hl hr dl dr =>
    obtain rfl : o = o' := by
      have hinj := Operator.ofRecordType?_recordType o
      rw [type_unique ht ht', Operator.ofRecordType?_recordType] at hinj
      exact (Option.some.inj hinj).symm
    exact ⟨left, right, l, r, hl, hr, dl, dr, rfl⟩

theorem describes_literal {d : Datum} {v : Int} (h : Describes d (.literal v)) :
    d.field? "type" = some (.text "Literal") ∧ d.field? "value" = some (.int v) := by
  cases h with
  | literal ht hv => exact ⟨ht, hv⟩

theorem describes_var {d : Datum} {x : String} (h : Describes d (.var x)) :
    d.field? "type" = some (.text "Variable") ∧ d.field? "name" = some (.text x) := by
  cases h with
  | var ht hx => exact ⟨ht, hx⟩

theorem describes_binary {d : Datum} {op : String} {l r : Expr}
    (h : Describes d (.binary op l r)) :
    ∃ (o : Operator) (left right : Datum), op = o.symbol ∧
      d.field? "type" = some (.text o.recordType) ∧ d.field? "left" = some left ∧
      d.field? "right" = some right ∧ Describes left l ∧ Describes right r := by
  cases h with
  | @binary d left right o l r ht hl hr dl dr => exact ⟨o, left, right, rfl, ht, hl, hr, dl, dr⟩

/-! ## Equality of pruned records -/

/-- Records of one type are equal once they are pruned, if the values of their other fields are. -/
theorem same_pruned_of_fields {d d' : Datum} {type : String} {e e' : Expr} (h : Describes d e)
    (h' : Describes d' e') (ht : d.field? "type" = some (.text type))
    (ht' : d'.field? "type" = some (.text type))
    (hf : ∀ key ∈ Datum.fieldsOfType (.text type), key ≠ "type" → ∃ x y, d.field? key = some x ∧
      d'.field? key = some y ∧ x.pruned.same y.pruned = true) :
    d.pruned.same d'.pruned = true := by
  obtain ⟨_, hu, hall⟩ := h.exists_fields
  obtain ⟨_, hu', hall'⟩ := h'.exists_fields
  cases type_unique ht hu
  cases type_unique ht' hu'
  refine (Datum.hasJust_pruned ht hall).same (Datum.nodup_fieldsOfType _)
    (Datum.hasJust_pruned ht' hall') fun key hkey => ?_
  rw [Datum.field?_pruned ht hkey, Datum.field?_pruned ht' hkey]
  by_cases htype : key = "type"
  · subst htype
    rw [ht, ht']
    exact ⟨_, _, rfl, rfl, Datum.same_text_iff.2 rfl⟩
  · obtain ⟨x, y, hx, hy, hxy⟩ := hf key hkey htype
    rw [hx, hy]
    exact ⟨_, _, rfl, rfl, hxy⟩

/-- Records of one tree are equal once they are pruned. -/
theorem same_pruned {d d' : Datum} {e : Expr} (h : Describes d e) (h' : Describes d' e) :
    d.pruned.same d'.pruned = true := by
  induction h generalizing d' with
  | @literal d v ht hv =>
    obtain ⟨ht', hv'⟩ := describes_literal h'
    refine same_pruned_of_fields (.literal ht hv) h' ht ht' ?_
    refine List.forall_mem_cons.2 ⟨fun hne => absurd rfl hne, List.forall_mem_singleton.2 ?_⟩
    exact fun _ => ⟨_, _, hv, hv', Datum.same_int_iff.2 rfl⟩
  | @var d x ht hx hne =>
    obtain ⟨ht', hx'⟩ := describes_var h'
    refine same_pruned_of_fields (.var ht hx hne) h' ht ht' ?_
    refine List.forall_mem_cons.2 ⟨fun hne => absurd rfl hne, List.forall_mem_singleton.2 ?_⟩
    exact fun _ => ⟨_, _, hx, hx', Datum.same_text_iff.2 rfl⟩
  | @binary d left right o l r ht hl hr dl dr ihl ihr =>
    obtain ⟨o', left', right', ho, ht', hl', hr', dl', dr'⟩ := describes_binary h'
    obtain rfl := Operator.symbol_injective ho
    refine same_pruned_of_fields (.binary ht hl hr dl dr) h' ht ht' ?_
    rw [fieldsOfType_recordType]
    exact List.forall_mem_cons.2 ⟨fun hne => absurd rfl hne,
      List.forall_mem_cons.2 ⟨fun _ => ⟨_, _, hl, hl', ihl dl'⟩,
        List.forall_mem_singleton.2 fun _ => ⟨_, _, hr, hr', ihr dr'⟩⟩⟩

/-- Where a pruned record is equal to another record, this one has equal values in all fields that
count. -/
theorem Describes.fields_of_same {d d' : Datum} {e : Expr} (h : Describes d e) {type : String}
    (ht : d.field? "type" = some (.text type)) (hs : d.pruned.same d' = true) :
    ∀ key ∈ Datum.fieldsOfType (.text type), ∀ x, d.field? key = some x →
      ∃ y, d'.field? key = some y ∧ x.pruned.same y = true := by
  obtain ⟨_, hu, hall⟩ := h.exists_fields
  cases type_unique ht hu
  intro key hkey x hx
  obtain ⟨x', y, hx', hy, hxy⟩ := (Datum.hasJust_pruned ht hall).exists_of_same
    (Datum.nodup_fieldsOfType _) hs hkey
  rw [Datum.field?_pruned ht hkey, hx] at hx'
  cases hx'
  exact ⟨y, hy, hxy⟩

theorem Describes.type_of_same {d d' : Datum} {e : Expr} (h : Describes d e) {type : String}
    (ht : d.field? "type" = some (.text type)) (hkey : "type" ∈ Datum.fieldsOfType (.text type))
    (hs : d.pruned.same d' = true) : d'.field? "type" = some (.text type) := by
  obtain ⟨y, hy, hxy⟩ := h.fields_of_same ht hs "type" hkey _ ht
  have htext : (Datum.text type).same y = true := hxy
  rw [Datum.text_same_eq_isText, Datum.isText_iff] at htext
  rw [hy, htext]

/-- Records that are equal once they are pruned are records of one tree. -/
theorem eq_of_same_pruned {d d' : Datum} {e e' : Expr} (h : Describes d e) (h' : Describes d' e')
    (hs : d.pruned.same d' = true) : e = e' := by
  induction h generalizing d' e' with
  | @literal d v ht hv =>
    have hd : Describes d (.literal v) := .literal ht hv
    obtain ⟨w, hw, rfl⟩ := h'.of_type_literal (hd.type_of_same ht (by decide) hs)
    obtain ⟨y, hy, hvy⟩ := hd.fields_of_same ht hs "value" (by decide) _ hv
    rw [hw] at hy
    cases hy
    rw [Datum.same_int_iff.1 hvy]
  | @var d x ht hx hne =>
    have hd : Describes d (.var x) := .var ht hx hne
    obtain ⟨z, hz, rfl⟩ := h'.of_type_variable (hd.type_of_same ht (by decide) hs)
    obtain ⟨y, hy, hxy⟩ := hd.fields_of_same ht hs "name" (by decide) _ hx
    rw [hz] at hy
    cases hy
    rw [Datum.text.inj (Datum.same_text_iff.1 hxy)]
  | @binary d left right o l r ht hl hr dl dr ihl ihr =>
    have hd : Describes d (.binary o.symbol l r) := .binary ht hl hr dl dr
    have hfields := fieldsOfType_recordType o
    have htype := hd.type_of_same ht (by rw [hfields]; decide) hs
    obtain ⟨left', right', l', r', hl', hr', dl', dr', rfl⟩ := h'.of_type_operator htype
    obtain ⟨y, hy, hly⟩ := hd.fields_of_same ht hs "left" (by rw [hfields]; decide) _ hl
    obtain ⟨z, hz, hrz⟩ := hd.fields_of_same ht hs "right" (by rw [hfields]; decide) _ hr
    rw [hl'] at hy
    rw [hr'] at hz
    cases hy
    cases hz
    rw [ihl dl' hly, ihr dr' hrz]

/-! ## Written records -/

theorem pruned_toRecord {e : Expr} {d : Datum} (h : e.toRecord = .ok d) : d.pruned = d := by
  induction e generalizing d with
  | literal v =>
    cases h
    rfl
  | var x =>
    cases h
    rfl
  | binary op l r ihl ihr =>
    obtain ⟨o, -, left, right, hleft, hright, rfl⟩ := toRecord_binary_eq_ok.1 h
    have hpruned : (binaryRecord o left right).pruned =
        binaryRecord o left.pruned right.pruned := by
      cases o <;> rfl
    rw [hpruned, ihl hleft, ihr hright]
  | foreign it => cases h

/-- Writing a tree that was read from a record gives the pruned record back, up to the order of the
fields; a pruned record is read as before, and pruned records are equal exactly when their trees
are. -/
theorem record_codec :
    (∀ e : Expr, e.WellFormed → (∀ x ∈ e.vars, x ≠ "") →
      ∃ d, e.toRecord = .ok d ∧ ofRecord d = .ok e) ∧
    (∀ (d : Datum) (e : Expr), ofRecord d = .ok e →
      ∃ written, e.toRecord = .ok written ∧ written.same d.pruned = true ∧
        d.pruned.same written = true ∧ ofRecord d.pruned = .ok e) ∧
    ∀ (d d' : Datum) (e e' : Expr), ofRecord d = .ok e → ofRecord d' = .ok e' →
      (e = e' ↔ d.pruned.same d'.pruned = true) := by
  refine ⟨fun e he hn => ?_, fun d e h => ?_, fun d d' e e' h h' => ?_⟩
  · obtain ⟨d, hd⟩ := exists_toRecord he
    exact ⟨d, hd, ofRecord_of_toRecord he hn hd⟩
  · have hd : Describes d e := describes_of_ofRecord h
    obtain ⟨written, hwritten⟩ := exists_toRecord hd.wellFormed
    have hback : Describes written e :=
      describes_of_ofRecord (ofRecord_of_toRecord hd.wellFormed hd.names hwritten)
    have hsame := same_pruned hback hd
    have hsame' := same_pruned hd hback
    rw [pruned_toRecord hwritten] at hsame hsame'
    exact ⟨written, hwritten, hsame, hsame', ofRecord_of_describes hd.pruned⟩
  · have hd : Describes d e := describes_of_ofRecord h
    have hd' : Describes d' e' := describes_of_ofRecord h'
    constructor
    · rintro rfl
      exact same_pruned hd hd'
    · exact eq_of_same_pruned hd hd'.pruned

/-- One record has its fields the other way round and notes at both levels. The other one has none of
that and can only be read. -/
theorem record_codec_reordered :
    ofRecord (.mapping [(.text "right", .mapping [(.text "name", .text "x"), (.text "note", .null),
        (.text "type", .text "Variable")]), (.int 1, .null), (.text "type", .text "Multiply"),
        (.text "left", .mapping [(.text "value", .int 2), (.text "type", .text "Literal")])]) =
        .ok (.mul (.literal 2) (.var "x")) ∧
      (mul (.literal 2) (.var "x")).WellFormed ∧
      (∃ d, (mul (.literal 2) (.var "x")).toRecord = .ok d ∧
        ofRecord d = .ok (.mul (.literal 2) (.var "x"))) ∧
      (Datum.mapping [(.text "right", .mapping [(.text "name", .text "x"), (.text "note", .null),
        (.text "type", .text "Variable")]), (.int 1, .null), (.text "type", .text "Multiply"),
        (.text "left", .mapping [(.text "value", .int 2),
          (.text "type", .text "Literal")])]).pruned.same
        (Datum.view [(.text "type", .text "Multiply"),
          (.text "left", .view [(.text "type", .text "Literal"), (.text "value", .int 2)]),
          (.text "right", .view [(.text "type", .text "Variable"),
            (.text "name", .text "x")])]).pruned = true := by
  obtain ⟨written, -, equal⟩ := record_codec
  have he : (mul (.literal 2) (.var "x")).WellFormed := by decide
  have hn : ∀ x ∈ (mul (.literal 2) (.var "x")).vars, x ≠ "" := by decide
  exact ⟨rfl, he, written _ he hn, (equal _ _ _ _ rfl rfl).1 rfl⟩

end Expr

end Abacus
