import JsonDelta.Document.Parser
/-!
Documents whose objects hold every key once, at every depth. Main statement: a document that was
read is one.
-/

namespace JsonDelta

namespace Document

mutual

def KeysDistinct : Document → Prop
  | array items => ItemsDistinct items
  | object members => (members.map Prod.fst).Nodup ∧ MembersDistinct members
  | _ => True

def ItemsDistinct : List Document → Prop
  | [] => True
  | item :: rest => item.KeysDistinct ∧ ItemsDistinct rest

def MembersDistinct : List (String × Document) → Prop
  | [] => True
  | (_, value) :: rest => value.KeysDistinct ∧ MembersDistinct rest

end

theorem itemsDistinct_iff {items : List Document} :
    ItemsDistinct items ↔ ∀ item ∈ items, item.KeysDistinct := by
  induction items with
  | nil => simp [ItemsDistinct]
  | cons item rest ih => simp [ItemsDistinct, ih]

theorem membersDistinct_iff {members : List (String × Document)} :
    MembersDistinct members ↔ ∀ m ∈ members, m.2.KeysDistinct := by
  induction members with
  | nil => simp [MembersDistinct]
  | cons m rest ih => simp [MembersDistinct, ih]

theorem keysDistinct_array {items : List Document} :
    (array items).KeysDistinct ↔ ∀ item ∈ items, item.KeysDistinct := by
  rw [KeysDistinct, itemsDistinct_iff]

theorem keysDistinct_object {members : List (String × Document)} :
    (object members).KeysDistinct ↔
      (members.map Prod.fst).Nodup ∧ ∀ m ∈ members, m.2.KeysDistinct := by
  rw [KeysDistinct, membersDistinct_iff]

end Document

/-! Putting a member keeps keys distinct. -/

namespace Members

theorem mem_put {key : String} {value : Document} {m : String × Document}
    {members : List (String × Document)} (h : m ∈ put key value members) :
    m = (key, value) ∨ m ∈ members := by
  induction members with
  | nil => exact .inl (List.mem_singleton.1 h)
  | cons n rest ih =>
    rw [put] at h
    split at h
    · rcases List.mem_cons.1 h with rfl | h
      · exact .inl rfl
      · exact .inr (List.mem_cons_of_mem _ h)
    · rcases List.mem_cons.1 h with rfl | h
      · exact .inr List.mem_cons_self
      · exact (ih h).imp_right (List.mem_cons_of_mem _)

theorem nodup_keys_put {key : String} {value : Document} {members : List (String × Document)}
    (h : (members.map Prod.fst).Nodup) : ((put key value members).map Prod.fst).Nodup := by
  induction members with
  | nil => simp [put]
  | cons n rest ih =>
    obtain ⟨hn, hr⟩ := List.nodup_cons.1 h
    rw [put]
    split
    · rename_i hk
      rw [List.map_cons, ← hk]
      exact h
    · rename_i hk
      refine List.nodup_cons.2 ⟨fun hmem => ?_, ih hr⟩
      obtain ⟨m, hm, hfst⟩ := List.mem_map.1 hmem
      rcases mem_put hm with rfl | hm
      · exact hk hfst.symm
      · exact hn (List.mem_map.2 ⟨m, hm, hfst⟩)

theorem keysDistinct_put {key : String} {value : Document} {members : List (String × Document)}
    (h : (Document.object members).KeysDistinct) (hv : value.KeysDistinct) :
    (Document.object (put key value members)).KeysDistinct := by
  rw [Document.keysDistinct_object] at h ⊢
  refine ⟨nodup_keys_put h.1, fun m hm => ?_⟩
  rcases mem_put hm with rfl | hm
  · exact hv
  · exact h.2 m hm

end Members

/-! Tokens are no containers. -/

namespace Token

def KeysDistinct : Token → Prop
  | .scalar value => value.KeysDistinct
  | _ => True

theorem keysDistinct_of_ofWord? {word : List Char} {token : Token}
    (h : ofWord? word = some token) : token.KeysDistinct := by
  unfold ofWord? at h
  split at h
  iterate 3 cases h; trivial
  obtain ⟨n, _, rfl⟩ := Option.map_eq_some_iff.1 h
  trivial

theorem keysDistinct_of_punctuation? {c : Char} {token : Token}
    (h : punctuation? c = some token) : token.KeysDistinct := by
  unfold punctuation? at h
  split at h <;> cases h <;> trivial

namespace Scanner

def KeysDistinct (scanner : Scanner) : Prop := ∀ token ∈ scanner.reversed, token.KeysDistinct

theorem keysDistinct_cons {token : Token} {pending : Pending} {tokens : List Token}
    (h : token.KeysDistinct) (ht : ∀ t ∈ tokens, t.KeysDistinct) :
    KeysDistinct ⟨pending, token :: tokens⟩ :=
  List.forall_mem_cons.2 ⟨h, ht⟩

theorem keysDistinct_begin {tokens : List Token} {c : Char}
    (ht : ∀ t ∈ tokens, t.KeysDistinct) : (begin tokens c).KeysDistinct := by
  unfold begin
  split
  · exact ht
  · split
    · exact ht
    · split
      · rename_i h
        exact keysDistinct_cons (keysDistinct_of_punctuation? h) ht
      · exact ht

theorem keysDistinct_step {scanner next : Scanner} {c : Char} (hs : scanner.KeysDistinct)
    (h : scanner.step c = some next) : next.KeysDistinct := by
  unfold step at h
  split at h
  · cases h
    exact keysDistinct_begin hs
  · split at h
    · obtain ⟨token, ht, rfl⟩ := Option.map_eq_some_iff.1 h
      exact keysDistinct_begin (List.forall_mem_cons.2 ⟨keysDistinct_of_ofWord? ht, hs⟩)
    · cases h
      exact hs
  · split at h
    · obtain ⟨text, _, rfl⟩ := Option.map_eq_some_iff.1 h
      exact keysDistinct_cons trivial hs
    · split at h <;> (cases h; exact hs)
  · cases h
    exact hs

theorem keysDistinct_finish? {scanner : Scanner} {tokens : List Token}
    (hs : scanner.KeysDistinct) (h : scanner.finish? = some tokens) :
    ∀ token ∈ tokens, token.KeysDistinct := by
  unfold finish? at h
  split at h
  · cases h
    exact fun token ht => hs token (List.mem_reverse.1 ht)
  · obtain ⟨token, hw, rfl⟩ := Option.map_eq_some_iff.1 h
    intro t ht
    exact List.forall_mem_cons.2 ⟨keysDistinct_of_ofWord? hw, hs⟩ t (List.mem_reverse.1 ht)
  · cases h
  · cases h

end Scanner

end Token

/-- What every step keeps holds at the end of a run. -/
theorem invariant_foldlM {σ τ : Type} {step : σ → τ → Option σ} {P : σ → Prop} {Q : τ → Prop}
    (keeps : ∀ s t s', P s → Q t → step s t = some s' → P s') {ts : List τ} {s s' : σ}
    (hs : P s) (ht : ∀ t ∈ ts, Q t) (h : ts.foldlM step s = some s') : P s' := by
  induction ts generalizing s with
  | nil =>
    cases h
    exact hs
  | cons t ts ih =>
    obtain ⟨next, hn, hr⟩ := Option.bind_eq_some_iff.1 h
    have ⟨hq, hqs⟩ := List.forall_mem_cons.1 ht
    exact ih (keeps s t next hs hq hn) hqs hr

theorem Token.keysDistinct_of_scan? {text : List Char} {tokens : List Token}
    (h : scan? text = some tokens) : ∀ token ∈ tokens, token.KeysDistinct := by
  obtain ⟨scanner, hs, hf⟩ := Option.bind_eq_some_iff.1 h
  have start : Scanner.start.KeysDistinct := fun _ ht => nomatch ht
  exact Scanner.keysDistinct_finish? (invariant_foldlM (Q := fun _ => True)
    (fun _ _ _ hs _ h => Scanner.keysDistinct_step hs h) start (fun _ _ => trivial) hs) hf

/-! The reading machine keeps keys distinct. -/

def Frame.KeysDistinct : Frame → Prop
  | .items reversed => ∀ d ∈ reversed, d.KeysDistinct
  | .members done _ => (Document.object done).KeysDistinct

namespace Reading

def KeysDistinct : Reading → Prop
  | .value opened | .firstItem opened | .firstKey opened => ∀ f ∈ opened, f.KeysDistinct
  | .nextKey opened done | .colon opened done _ =>
    (Document.object done).KeysDistinct ∧ ∀ f ∈ opened, f.KeysDistinct
  | .complete opened d => d.KeysDistinct ∧ ∀ f ∈ opened, f.KeysDistinct

theorem keysDistinct_ofValueStart {opened : List Frame} {token : Token} {next : Reading}
    (ho : ∀ f ∈ opened, f.KeysDistinct) (ht : token.KeysDistinct)
    (h : ofValueStart opened token = some next) : next.KeysDistinct := by
  unfold ofValueStart at h
  split at h <;> cases h
  · exact ⟨ht, ho⟩
  · exact ho
  · exact ho

theorem keysDistinct_ofKey {opened : List Frame} {done : List (String × Document)} {token : Token}
    {next : Reading} (ho : ∀ f ∈ opened, f.KeysDistinct) (hd : (Document.object done).KeysDistinct)
    (h : ofKey opened done token = some next) : next.KeysDistinct := by
  unfold ofKey at h
  split at h <;> cases h
  exact ⟨hd, ho⟩

theorem keysDistinct_ofCompleteValue {d : Document} {opened : List Frame} {token : Token}
    {next : Reading} (hd : d.KeysDistinct) (ho : ∀ f ∈ opened, f.KeysDistinct)
    (h : ofCompleteValue d opened token = some next) : next.KeysDistinct := by
  unfold ofCompleteValue at h
  split at h <;> cases h
  all_goals
    have ⟨hf, hr⟩ := List.forall_mem_cons.1 ho
  · exact List.forall_mem_cons.2 ⟨List.forall_mem_cons.2 ⟨hd, hf⟩, hr⟩
  · refine ⟨Document.keysDistinct_array.2 fun item hi => ?_, hr⟩
    exact List.forall_mem_cons.2 ⟨hd, hf⟩ item (List.mem_reverse.1 hi)
  · exact ⟨Members.keysDistinct_put hf hd, hr⟩
  · exact ⟨Members.keysDistinct_put hf hd, hr⟩

theorem keysDistinct_step {reading next : Reading} {token : Token} (hr : reading.KeysDistinct)
    (ht : token.KeysDistinct) (h : reading.step token = some next) : next.KeysDistinct := by
  have empty : (Document.object []).KeysDistinct := ⟨.nil, trivial⟩
  have noItems : (Frame.items []).KeysDistinct := fun _ hd => nomatch hd
  unfold step at h
  split at h
  · exact keysDistinct_ofValueStart hr ht h
  · cases h
    exact ⟨trivial, hr⟩
  · exact keysDistinct_ofValueStart (List.forall_mem_cons.2 ⟨noItems, hr⟩) ht h
  · cases h
    exact ⟨empty, hr⟩
  · exact keysDistinct_ofKey hr empty h
  · exact keysDistinct_ofKey hr.2 hr.1 h
  · cases h
    exact List.forall_mem_cons.2 hr
  · cases h
  · exact keysDistinct_ofCompleteValue hr.1 hr.2 h

end Reading

namespace Document

theorem keysDistinct_of_ofTokens? {tokens : List Token} {d : Document}
    (ht : ∀ token ∈ tokens, token.KeysDistinct) (h : ofTokens? tokens = some d) :
    d.KeysDistinct := by
  obtain ⟨reading, hr, hf⟩ := Option.bind_eq_some_iff.1 h
  have start : (Reading.value []).KeysDistinct := fun _ hf => nomatch hf
  have hd := invariant_foldlM (fun _ _ _ hs ht h => Reading.keysDistinct_step hs ht h) start ht hr
  unfold Reading.finish? at hf
  split at hf <;> cases hf
  exact hd.1

theorem keysDistinct_of_parse? {text : String} {d : Document} (h : parse? text = some d) :
    d.KeysDistinct := by
  obtain ⟨tokens, ht, hd⟩ := Option.bind_eq_some_iff.1 h
  exact keysDistinct_of_ofTokens? (Token.keysDistinct_of_scan? ht) hd

theorem keysDistinct_of_ofBytes? {bytes : ByteArray} {d : Document}
    (h : ofBytes? bytes = some d) : d.KeysDistinct := by
  obtain ⟨text, _, hd⟩ := Option.bind_eq_some_iff.1 h
  exact keysDistinct_of_parse? hd

end Document

end JsonDelta
