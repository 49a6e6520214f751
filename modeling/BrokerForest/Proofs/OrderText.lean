import BrokerForest.Pool.Order
import Mathlib.Data.List.Induction
import Mathlib.Data.List.Nodup
/-!
# The text of an order: what is one, and what is wrong with it otherwise

A text of an order is read field by field.  What parts its fields says nothing, however much of
it there is and wherever it stands, so that a text says what its fields say: an order, if they
are the tokens of kinds of which none repeats.  A field that is no token is told first, even if
a kind repeats before it.

Main statements:

* `SearchOrder.Parted` — the fields of some characters are their longest runs of characters that
  part nothing;
* `SearchOrder.parted_iff` — and they are the fields that are read;
* `SearchOrder.parse_text` — the text of an order is read as this order;
* **`SearchOrder.parse_says_fields`** — what comes of any text.
-/

namespace BrokerForest

namespace PoolKind

/-- A token is that of the kind which it names. -/
theorem ofToken?_eq_some_iff {token : String} {kind : PoolKind} :
    ofToken? token = some kind ↔ token = kind.token := by
  constructor
  · intro h
    have hfound := List.find?_some h
    exact (beq_iff_eq.1 hfound).symm
  · rintro rfl
    cases kind <;> decide

/-- What names no kind is the token of none. -/
theorem ofToken?_eq_none_iff {token : String} :
    ofToken? token = none ↔ ∀ kind : PoolKind, token ≠ kind.token := by
  constructor
  · intro h kind heq
    rw [ofToken?_eq_some_iff.2 heq] at h
    cases h
  · intro h
    cases hkind : ofToken? token with
    | none => rfl
    | some kind => exact absurd (ofToken?_eq_some_iff.1 hkind) (h kind)

end PoolKind

namespace SearchOrder

/-! ## Fields -/

/-- Some characters have some fields: their longest runs of characters that part nothing. -/
inductive Parted : List Char → List String → Prop where
  /-- Characters that all part have no field. -/
  | blank {gap : List Char} (parting : ∀ c ∈ gap, isSeparator c = true) : Parted gap []
  /-- A field has some characters.  It begins after what parts it from the field before it, and
  goes on until a character parts or there is none any more. -/
  | field {gap run rest : List Char} {fields : List String}
      (parting : ∀ c ∈ gap, isSeparator c = true) (nonempty : run ≠ [])
      (together : ∀ c ∈ run, isSeparator c = false)
      (longest : ∀ c ∈ rest.head?, isSeparator c = true) (later : Parted rest fields) :
      Parted (gap ++ run ++ rest) (String.ofList run :: fields)

section

variable {blanks run rest cs : List Char} {fields : List String}

/-- What parts says nothing before the first field. -/
theorem Parted.after_gap (h : Parted cs fields) (hblanks : ∀ c ∈ blanks, isSeparator c = true) :
    Parted (blanks ++ cs) fields := by
  cases h with
  | blank parting =>
      refine .blank fun c hc => ?_
      exact (List.mem_append.1 hc).elim (hblanks c) (parting c)
  | @field gap run rest fields parting nonempty together longest later =>
      have hall : ∀ c ∈ blanks ++ gap, isSeparator c = true := fun c hc =>
        (List.mem_append.1 hc).elim (hblanks c) (parting c)
      simpa only [List.append_assoc] using Parted.field hall nonempty together longest later

/-- A field may stand at the very beginning. -/
theorem Parted.at_once (nonempty : run ≠ []) (together : ∀ c ∈ run, isSeparator c = false)
    (longest : ∀ c ∈ rest.head?, isSeparator c = true) (later : Parted rest fields) :
    Parted (run ++ rest) (String.ofList run :: fields) := by
  have hgap : ∀ c ∈ ([] : List Char), isSeparator c = true := by simp
  simpa using Parted.field hgap nonempty together longest later

/-- Nothing has no field. -/
theorem parted_nil : Parted [] [] := .blank (by simp)

/-- Where no field is begun, what parts is passed over. -/
theorem fieldsAfter_gap (hblanks : ∀ c ∈ blanks, isSeparator c = true) (cs : List Char) :
    fieldsAfter [] (blanks ++ cs) = fieldsAfter [] cs := by
  induction blanks with
  | nil => rfl
  | cons c blanks ih =>
      obtain ⟨hc, hrest⟩ := List.forall_mem_cons.1 hblanks
      simpa [fieldsAfter, hc] using ih hrest

/-- Characters that part nothing go on with the field that is begun. -/
theorem fieldsAfter_run (hrun : ∀ c ∈ run, isSeparator c = false) (current cs : List Char) :
    fieldsAfter current (run ++ cs) = fieldsAfter (current ++ run) cs := by
  induction run generalizing current with
  | nil => simp
  | cons c run ih =>
      obtain ⟨hc, hrest⟩ := List.forall_mem_cons.1 hrun
      rw [List.cons_append, fieldsAfter, hc, if_neg Bool.false_ne_true, ih hrest,
        List.append_assoc, List.singleton_append]

/-- A field that is begun is over where a character parts or there is none any more. -/
theorem fieldsAfter_end (hrun : run ≠ []) (hrest : ∀ c ∈ rest.head?, isSeparator c = true) :
    fieldsAfter run rest = String.ofList run :: fieldsAfter [] rest := by
  have hbegun : run.isEmpty = false := by simpa using hrun
  cases rest with
  | nil => simp [fieldsAfter, hbegun]
  | cons c rest =>
      have hc : isSeparator c = true := hrest c rfl
      simp [fieldsAfter, hc, hbegun]

/-- The characters of a field that is begun, and those after it, have the fields that are read
from there on. -/
theorem parted_fieldsAfter (cs : List Char) {current : List Char}
    (h : ∀ c ∈ current, isSeparator c = false) :
    Parted (current ++ cs) (fieldsAfter current cs) := by
  induction cs generalizing current with
  | nil =>
      by_cases hbegun : current = []
      · subst hbegun
        exact parted_nil
      · rw [fieldsAfter_end hbegun (by simp)]
        exact .at_once hbegun h (by simp) parted_nil
  | cons c cs ih =>
      cases hc : isSeparator c with
      | false =>
          have hstep : fieldsAfter current (c :: cs) = fieldsAfter (current ++ [c]) cs := by
            simp [fieldsAfter, hc]
          rw [hstep, ← List.singleton_append, ← List.append_assoc]
          refine ih fun d hd => ?_
          rcases List.mem_append.1 hd with hd | hd
          · exact h d hd
          · rwa [List.mem_singleton.1 hd]
      | true =>
          have hrest : Parted (c :: cs) (fieldsAfter [] (c :: cs)) := by
            have hgap : ∀ d ∈ [c], isSeparator d = true := by simpa using hc
            have hstep := fieldsAfter_gap hgap cs
            rw [List.singleton_append] at hstep
            rw [hstep]
            have hnone : ∀ d ∈ ([] : List Char), isSeparator d = false := by simp
            exact (ih hnone).after_gap hgap
          by_cases hbegun : current = []
          · subst hbegun
            exact hrest
          · rw [fieldsAfter_end hbegun (by simpa using hc)]
            exact .at_once hbegun h (by simpa using hc) hrest

/-- **The fields that are read are the longest runs of characters that part nothing.** -/
theorem parted_iff : Parted cs fields ↔ fields = fieldsAfter [] cs := by
  constructor
  · intro h
    induction h with
    | blank parting => simpa [fieldsAfter] using (fieldsAfter_gap parting []).symm
    | field parting nonempty together longest later ih =>
        rw [List.append_assoc, fieldsAfter_gap parting, fieldsAfter_run together,
          List.nil_append, fieldsAfter_end nonempty longest, ih]
  · rintro rfl
    have hnone : ∀ c ∈ ([] : List Char), isSeparator c = false := by simp
    exact parted_fieldsAfter cs hnone

end

/-! ## Tokens -/

/-- A field is the first of some that is no token. -/
def FirstUnknown (fields : List String) (field : String) : Prop :=
  ∃ before after, fields = before ++ field :: after ∧
    (∀ kind : PoolKind, field ≠ kind.token) ∧ ∀ f ∈ before, ∃ kind : PoolKind, f = kind.token

/-- A kind is the first of some that repeats an earlier one. -/
def FirstRepeat (kinds : List PoolKind) (kind : PoolKind) : Prop :=
  ∃ before after, kinds = before ++ kind :: after ∧ before.Nodup ∧ kind ∈ before

/-- Fields are tokens, or one of them is the first that is none. -/
theorem tokens_or_unknown (fields : List String) :
    (∃ kinds : List PoolKind, fields = kinds.map PoolKind.token) ∨
      ∃ field, FirstUnknown fields field := by
  induction fields with
  | nil => exact .inl ⟨[], rfl⟩
  | cons field fields ih =>
      cases hfield : PoolKind.ofToken? field with
      | none =>
          exact .inr ⟨field, [], fields, rfl, PoolKind.ofToken?_eq_none_iff.1 hfield, by simp⟩
      | some kind =>
          have htoken := PoolKind.ofToken?_eq_some_iff.1 hfield
          rcases ih with ⟨kinds, rfl⟩ | ⟨unknown, before, after, rfl, hunknown, hbefore⟩
          · exact .inl ⟨kind :: kinds, by rw [htoken, List.map_cons]⟩
          · refine .inr ⟨unknown, field :: before, after, rfl, hunknown, ?_⟩
            exact List.forall_mem_cons.2 ⟨⟨kind, htoken⟩, hbefore⟩

/-- Kinds are all different, or one of them is the first that repeats an earlier one. -/
theorem nodup_or_repeat (kinds : List PoolKind) :
    kinds.Nodup ∨ ∃ kind, FirstRepeat kinds kind := by
  induction kinds using List.reverseRecOn with
  | nil => exact .inl List.nodup_nil
  | append_singleton kinds last ih =>
      rcases ih with hnodup | ⟨kind, before, after, rfl, hbefore, hkind⟩
      · by_cases hlast : last ∈ kinds
        · exact .inr ⟨last, kinds, [], rfl, hnodup, hlast⟩
        · exact .inl (List.nodup_append_comm.1 (List.nodup_cons.2 ⟨hlast, hnodup⟩))
      · exact .inr ⟨kind, before, after ++ [last], by simp, hbefore, hkind⟩

/-- Tokens are read as their kinds. -/
theorem readKinds_tokens (kinds : List PoolKind) :
    readKinds (kinds.map PoolKind.token) = .ok kinds := by
  induction kinds with
  | nil => rfl
  | cons kind kinds ih =>
      simp [readKinds, readKind, PoolKind.ofToken?_eq_some_iff.2 rfl, ih]

/-- The first field that is no token is what is wrong with fields. -/
theorem readKinds_of_unknown {fields : List String} {field : String}
    (h : FirstUnknown fields field) :
    readKinds fields = .error (.unknownKind field) := by
  obtain ⟨before, after, rfl, hfield, hbefore⟩ := h
  induction before with
  | nil => simp [readKinds, readKind, PoolKind.ofToken?_eq_none_iff.2 hfield]
  | cons first before ih =>
      obtain ⟨⟨kind, hkind⟩, hrest⟩ := List.forall_mem_cons.1 hbefore
      simp [readKinds, readKind, PoolKind.ofToken?_eq_some_iff.2 hkind, ih hrest]

/-- Where kinds repeat neither one another nor those seen, there is no first repeat. -/
theorem firstRepeat_of_nodup {kinds seen : List PoolKind} (hnodup : kinds.Nodup)
    (hseen : ∀ kind ∈ kinds, kind ∉ seen) : firstRepeat seen kinds = none := by
  induction kinds generalizing seen with
  | nil => rfl
  | cons kind kinds ih =>
      obtain ⟨hkind, hrest⟩ := List.nodup_cons.1 hnodup
      obtain ⟨hnew, hlater⟩ := List.forall_mem_cons.1 hseen
      rw [firstRepeat, if_neg hnew]
      refine ih hrest fun other hother => ?_
      rw [List.mem_cons, not_or]
      exact ⟨fun heq => hkind (heq ▸ hother), hlater other hother⟩

/-- After kinds that repeat nothing, one that repeats something is the first repeat. -/
theorem firstRepeat_append {before after seen : List PoolKind} {kind : PoolKind}
    (hnodup : before.Nodup) (hseen : ∀ other ∈ before, other ∉ seen)
    (hkind : kind ∈ before ∨ kind ∈ seen) :
    firstRepeat seen (before ++ kind :: after) = some kind := by
  induction before generalizing seen with
  | nil =>
      have hmem : kind ∈ seen := hkind.resolve_left (by simp)
      rw [List.nil_append, firstRepeat, if_pos hmem]
  | cons first before ih =>
      obtain ⟨hfirst, hrest⟩ := List.nodup_cons.1 hnodup
      obtain ⟨hnew, hlater⟩ := List.forall_mem_cons.1 hseen
      rw [List.cons_append, firstRepeat, if_neg hnew]
      refine ih hrest (fun other hother => ?_) ?_
      · rw [List.mem_cons, not_or]
        exact ⟨fun heq => hfirst (heq ▸ hother), hlater other hother⟩
      · rw [List.mem_cons] at hkind ⊢
        rcases hkind with (rfl | hkind) | hkind
        · exact .inr (.inl rfl)
        · exact .inl hkind
        · exact .inr (.inr hkind)

/-- Different kinds make an order. -/
theorem ofKinds_of_nodup {kinds : List PoolKind} (h : kinds.Nodup) :
    ofKinds kinds = .ok ⟨kinds, h⟩ := by
  have hnone : firstRepeat [] kinds = none := firstRepeat_of_nodup h (by simp)
  unfold ofKinds
  split
  · rename_i kind hkind
    rw [hnone] at hkind
    cases hkind
  · rfl

/-- The first kind that repeats an earlier one is what is wrong with kinds. -/
theorem ofKinds_of_repeat {kinds : List PoolKind} {kind : PoolKind} (h : FirstRepeat kinds kind) :
    ofKinds kinds = .error (.repeated kind) := by
  obtain ⟨before, after, rfl, hbefore, hkind⟩ := h
  have hsome : firstRepeat [] (before ++ kind :: after) = some kind :=
    firstRepeat_append hbefore (by simp) (.inl hkind)
  unfold ofKinds
  split
  · rename_i other hother
    rw [hsome] at hother
    rw [Option.some_inj.1 hother]
  · rename_i hnone
    rw [hsome] at hnone
    cases hnone

/-! ## Texts -/

/-- Fields that are the tokens of different kinds make an order. -/
theorem parse_of_nodup {text : String} {kinds : List PoolKind}
    (h : fields text = kinds.map PoolKind.token) (hnodup : kinds.Nodup) :
    parse text = .ok ⟨kinds, hnodup⟩ := by
  rw [parse, h, readKinds_tokens]
  exact ofKinds_of_nodup hnodup

/-- Of fields that are tokens the first that repeats a kind is what is wrong. -/
theorem parse_of_repeat {text : String} {kinds : List PoolKind} {kind : PoolKind}
    (h : fields text = kinds.map PoolKind.token) (hrepeat : FirstRepeat kinds kind) :
    parse text = .error (.repeated kind) := by
  rw [parse, h, readKinds_tokens]
  exact ofKinds_of_repeat hrepeat

/-- Of fields that are not all tokens the first that is none is what is wrong. -/
theorem parse_of_unknown {text field : String} (h : FirstUnknown (fields text) field) :
    parse text = .error (.unknownKind field) := by
  rw [parse, readKinds_of_unknown h]

/-- Fields are tokens of different kinds, or tokens of kinds that repeat, or not all tokens. -/
theorem fields_cases (fields : List String) :
    (∃ kinds : List PoolKind, fields = kinds.map PoolKind.token ∧ kinds.Nodup) ∨
      (∃ kinds : List PoolKind, fields = kinds.map PoolKind.token ∧
        ∃ kind, FirstRepeat kinds kind) ∨
      ∃ field, FirstUnknown fields field := by
  rcases tokens_or_unknown fields with ⟨kinds, hkinds⟩ | hunknown
  · rcases nodup_or_repeat kinds with hnodup | hrepeat
    · exact .inl ⟨kinds, hkinds, hnodup⟩
    · exact .inr (.inl ⟨kinds, hkinds, hrepeat⟩)
  · exact .inr (.inr hunknown)

/-- A text is read as an order if and only if its fields are the tokens of different kinds, and
then as the order of these. -/
theorem parse_eq_ok_iff {text : String} {order : SearchOrder} :
    parse text = .ok order ↔ fields text = order.kinds.map PoolKind.token := by
  constructor
  · intro h
    rcases fields_cases (fields text) with
      ⟨kinds, hkinds, hnodup⟩ | ⟨kinds, hkinds, kind, hrepeat⟩ | ⟨field, hunknown⟩
    · rw [parse_of_nodup hkinds hnodup] at h
      cases h
      exact hkinds
    · rw [parse_of_repeat hkinds hrepeat] at h
      cases h
    · rw [parse_of_unknown hunknown] at h
      cases h
  · intro h
    exact parse_of_nodup h order.nodup

/-- A field is told to be unknown if and only if it is the first that is no token. -/
theorem parse_eq_unknown_iff {text field : String} :
    parse text = .error (.unknownKind field) ↔ FirstUnknown (fields text) field := by
  refine ⟨fun h => ?_, parse_of_unknown⟩
  rcases fields_cases (fields text) with
    ⟨kinds, hkinds, hnodup⟩ | ⟨kinds, hkinds, kind, hrepeat⟩ | ⟨other, hunknown⟩
  · rw [parse_of_nodup hkinds hnodup] at h
    cases h
  · rw [parse_of_repeat hkinds hrepeat] at h
    cases h
  · rw [parse_of_unknown hunknown] at h
    cases h
    exact hunknown

/-- A kind is told to repeat if and only if all fields are tokens, and it is that of the first of
them which repeats an earlier one. -/
theorem parse_eq_repeated_iff {text : String} {kind : PoolKind} :
    parse text = .error (.repeated kind) ↔
      ∃ kinds : List PoolKind, fields text = kinds.map PoolKind.token ∧ FirstRepeat kinds kind := by
  constructor
  · intro h
    rcases fields_cases (fields text) with
      ⟨kinds, hkinds, hnodup⟩ | ⟨kinds, hkinds, other, hrepeat⟩ | ⟨field, hunknown⟩
    · rw [parse_of_nodup hkinds hnodup] at h
      cases h
    · rw [parse_of_repeat hkinds hrepeat] at h
      cases h
      exact ⟨kinds, hkinds, hrepeat⟩
    · rw [parse_of_unknown hunknown] at h
      cases h
  · rintro ⟨kinds, hkinds, hrepeat⟩
    exact parse_of_repeat hkinds hrepeat

/-- A token has characters, and none of them parts. -/
theorem token_together (kind : PoolKind) :
    kind.token.toList ≠ [] ∧ ∀ c ∈ kind.token.toList, isSeparator c = false := by
  have hall : kind.token.toList.all (fun c => !isSeparator c) = true := by cases kind <;> decide
  refine ⟨by cases kind <;> decide, fun c hc => ?_⟩
  simpa using List.all_eq_true.1 hall c hc

/-- Tokens with commas between them are parted into the tokens. -/
theorem parted_tokens (kinds : List PoolKind) :
    Parted (",".intercalate (kinds.map PoolKind.token)).toList (kinds.map PoolKind.token) := by
  induction kinds with
  | nil => exact parted_nil
  | cons kind kinds ih =>
      obtain ⟨hsome, htogether⟩ := token_together kind
      cases kinds with
      | nil =>
          have hlast := Parted.at_once hsome htogether (by simp) parted_nil
          simpa using hlast
      | cons other kinds =>
          have hcomma : ∀ c ∈ [','], isSeparator c = true := by simp [isSeparator]
          have hrest := ih.after_gap hcomma
          have hfirst := Parted.at_once hsome htogether
            (fun c hc => hcomma c (by simpa using hc.symm)) hrest
          simpa [String.toList_append] using hfirst

/-- **The text of an order is read as this order.** -/
theorem parse_text (order : SearchOrder) : parse order.text = .ok order :=
  parse_eq_ok_iff.2 (parted_iff.1 (parted_tokens order.kinds)).symm

/-- **A text says what its fields say.**  The fields of a text are its longest runs of characters
that are neither commas nor white space.  It is the text of an order if and only if they are the
tokens of the order's kinds, of which none repeats.  Otherwise the first field that is no token is
told, and only if there is none the first kind that repeats an earlier one.  The text of an order
that was read is read as the same order, and texts with the same fields are read alike. -/
theorem parse_says_fields (text : String) :
    ∃ fields, (∀ others, Parted text.toList others ↔ others = fields) ∧
      (∀ kinds, (∃ order, parse text = .ok order ∧ order.kinds = kinds) ↔
        fields = kinds.map PoolKind.token ∧ kinds.Nodup) ∧
      (∀ field, parse text = .error (.unknownKind field) ↔ FirstUnknown fields field) ∧
      (∀ kind, parse text = .error (.repeated kind) ↔
        ∃ kinds, fields = kinds.map PoolKind.token ∧ FirstRepeat kinds kind) ∧
      (∀ order, parse text = .ok order → parse order.text = .ok order) ∧
      ∀ other : String, Parted other.toList fields → parse other = parse text := by
  refine ⟨fields text, fun others => parted_iff, fun kinds => ?_, fun field => parse_eq_unknown_iff,
    fun kind => parse_eq_repeated_iff, fun order _ => parse_text order, fun other hother => ?_⟩
  · constructor
    · rintro ⟨order, horder, rfl⟩
      exact ⟨parse_eq_ok_iff.1 horder, order.nodup⟩
    · rintro ⟨hkinds, hnodup⟩
      exact ⟨⟨kinds, hnodup⟩, parse_of_nodup hkinds hnodup, rfl⟩
  · have hsame : fields text = fields other := parted_iff.1 hother
    rw [parse, parse, hsame]

/-- Of a text with blanks of several kinds the field that is no token is told, although a kind
repeats before it. -/
theorem parse_says_fields_of_clutter :
    Parted " busy,,\u2003global\u0085busy\tnearby,far ".toList
        ["busy", "global", "busy", "nearby", "far"] ∧
      parse " busy,,\u2003global\u0085busy\tnearby,far " = .error (.unknownKind "nearby") := by
  have hparted : Parted " busy,,\u2003global\u0085busy\tnearby,far ".toList
      ["busy", "global", "busy", "nearby", "far"] := parted_iff.2 (by decide)
  obtain ⟨fields, hfields, -, hunknown, -⟩ :=
    parse_says_fields " busy,,\u2003global\u0085busy\tnearby,far "
  refine ⟨hparted, (hunknown "nearby").2 ?_⟩
  rw [← (hfields _).1 hparted]
  refine ⟨["busy", "global", "busy"], ["far"], rfl, fun kind => ?_, fun field hfield => ?_⟩
  · cases kind <;> decide
  · have hread : PoolKind.ofToken? field ≠ none := by
      revert field
      decide
    obtain ⟨kind, hkind⟩ := Option.ne_none_iff_exists'.1 hread
    exact ⟨kind, PoolKind.ofToken?_eq_some_iff.1 hkind⟩

end SearchOrder

end BrokerForest
