import MacXterm.Core.IniStore
import MacXterm.Qt.Trim

namespace Core

open Qt

def rstrip (s : QString) : QString := (s.reverse.dropWhile isSpace).reverse

theorem trimmed_eq (s : QString) : trimmed s = rstrip (s.dropWhile isSpace) := rfl

theorem rstrip_append {b : QString} (h : rstrip b ≠ []) (a : QString) :
    rstrip (a ++ b) = a ++ rstrip b := by
  have hne : b.reverse.dropWhile isSpace ≠ [] := fun he => h (congrArg List.reverse he)
  have hpos : ¬∀ c ∈ b.reverse, isSpace c = true := fun hall =>
    hne (List.dropWhile_eq_nil_iff.mpr hall)
  rw [rstrip, List.reverse_append, List.dropWhile_append, if_neg (by simpa using hne),
    List.reverse_append, List.reverse_reverse]
  rfl

theorem rstrip_cons {c : Char} (h : isSpace c = false) (s : QString) :
    rstrip (c :: s) = c :: rstrip s := by
  rw [rstrip, List.reverse_cons, List.dropWhile_append]
  split
  · rename_i he
    have hnil : s.reverse.dropWhile isSpace = [] := by simpa using he
    rw [rstrip, hnil, List.dropWhile_cons_of_neg (by simp [h])]
    rfl
  · rw [List.reverse_append]
    rfl

theorem rstrip_after {c : Char} (h : isSpace c = false) (a s : QString) :
    rstrip (a ++ c :: s) = a ++ c :: rstrip s := by
  rw [rstrip_append (by rw [rstrip_cons h]; exact List.cons_ne_nil _ _), rstrip_cons h]

theorem getLast?_rstrip {s : QString} {c : Char} (h : (rstrip s).getLast? = some c) :
    isSpace c = false := by
  rw [rstrip, List.getLast?_reverse] at h
  have := List.head?_dropWhile_not isSpace s.reverse
  rw [h] at this
  simpa using this

theorem rstrip_eq_self_iff (s : QString) :
    rstrip s = s ↔ ∀ c, s.getLast? = some c → isSpace c = false := by
  constructor
  · intro h c hc
    exact getLast?_rstrip (h.symm ▸ hc)
  · intro h
    rcases List.eq_nil_or_concat s with rfl | ⟨t, c, rfl⟩
    · rfl
    · rw [List.concat_eq_append] at h ⊢
      have hc := h c (by simp)
      rw [rstrip_after hc]
      rfl

-- Between the name and the '=' of the last field a line is as it was written.
def fieldText (e : QString × QString) : QString := e.1 ++ '=' :: e.2

def stripLast : List (QString × QString) → List (QString × QString)
  | [] => []
  | [e] => [(e.1, rstrip e.2)]
  | e :: es => e :: stripLast es

def body (type : QString) (es : List (QString × QString)) : QString :=
  joinFields (type :: es.map fieldText)

theorem body_cons (type : QString) (e : QString × QString) (es : List (QString × QString)) :
    body type (e :: es) = type ++ ';' :: body (fieldText e) es := by
  simp [body, joinFields, List.intercalate_cons_cons]

theorem stripLast_cons_cons (e d : QString × QString) (es : List (QString × QString)) :
    stripLast (e :: d :: es) = e :: stripLast (d :: es) := rfl

theorem rstrip_body (type : QString) (e : QString × QString) (es : List (QString × QString)) :
    rstrip (body type (e :: es)) = body type (stripLast (e :: es)) := by
  induction es generalizing type e with
  | nil =>
    rw [body_cons, rstrip_after (by decide), stripLast, body_cons]
    simp only [body, joinFields, List.map_nil, List.intercalate_singleton, fieldText]
    rw [rstrip_after (by decide)]
  | cons d es ih =>
    rw [body_cons, rstrip_after (by decide), ih, stripLast_cons_cons, body_cons type]

theorem rstrip_type (t : SessionType) :
    rstrip (sessionTypeToString t) = sessionTypeToString t := by
  cases t <;> decide

theorem semicolon_notMem_type (t : SessionType) : ';' ∉ sessionTypeToString t := by
  cases t <;> decide

theorem rstrip_text (s : Session) :
    rstrip (joinFields (fieldTexts s)) =
      body (sessionTypeToString s.type) (stripLast s.params.entries) := by
  change rstrip (body (sessionTypeToString s.type) s.params.entries) = _
  cases s.params.entries with
  | nil =>
    simp only [body, joinFields, stripLast, List.map_nil, List.intercalate_singleton]
    exact rstrip_type s.type
  | cons e es => exact rstrip_body _ e es

theorem trimmed_sessionText {s : Session} (hne : s.name ≠ [])
    (h : ∀ c, s.name.head? = some c → isSpace c = false) :
    trimmed (sessionText s) =
      s.name ++ '=' :: body (sessionTypeToString s.type) (stripLast s.params.entries) := by
  obtain ⟨c, cs, hname⟩ := List.exists_cons_of_ne_nil hne
  have hkeep : (sessionText s).dropWhile isSpace = sessionText s := by
    rw [sessionText, hname, List.cons_append, List.dropWhile_cons_of_neg (by simp [h c, hname])]
  rw [trimmed_eq, hkeep, sessionText, rstrip_after (by decide), rstrip_text]

theorem mem_stripLast {es : List (QString × QString)} {e : QString × QString}
    (h : e ∈ stripLast es) : ∃ d ∈ es, e.1 = d.1 ∧ ∀ c ∈ e.2, c ∈ d.2 := by
  induction es with
  | nil => simp [stripLast] at h
  | cons d es ih =>
    cases es with
    | nil =>
      obtain rfl := List.mem_singleton.mp h
      refine ⟨d, List.mem_cons_self, rfl, fun c hc => ?_⟩
      exact List.mem_reverse.mp ((List.dropWhile_suffix _).subset (List.mem_reverse.mp hc))
    | cons d' es =>
      rcases List.mem_cons.mp h with rfl | h
      · exact ⟨e, List.mem_cons_self, rfl, fun _ => id⟩
      · obtain ⟨x, hx, hex⟩ := ih h
        exact ⟨x, List.mem_cons_of_mem _ hx, hex⟩

theorem stripLast_eq_self_iff (es : List (QString × QString)) :
    stripLast es = es ↔ ∀ e, es.getLast? = some e → rstrip e.2 = e.2 := by
  induction es with
  | nil => simp [stripLast]
  | cons d es ih =>
    cases es with
    | nil => simp [stripLast, Prod.ext_iff]
    | cons d' es => simpa [stripLast_cons_cons] using ih

theorem keys_stripLast (es : List (QString × QString)) :
    (stripLast es).map Prod.fst = es.map Prod.fst := by
  induction es with
  | nil => rfl
  | cons d es ih =>
    cases es with
    | nil => rfl
    | cons d' es => rw [stripLast_cons_cons, List.map_cons, ih, List.map_cons (l := d' :: es)]

theorem getLast?_body (type : QString) (es : List (QString × QString)) :
    (body type es).getLast? =
      match es.getLast? with
      | none => type.getLast?
      | some e => ('=' :: e.2).getLast? := by
  induction es generalizing type with
  | nil => simp [body, joinFields]
  | cons d es ih =>
    rw [body_cons, List.getLast?_append, List.getLast?_cons, ih]
    cases es with
    | nil => simp [fieldText, List.getLast?_cons]
    | cons d' es => simp [List.getLast?_cons]

def CleanField (e : QString × QString) : Prop :=
  e.1 ≠ [] ∧ '=' ∉ e.1 ∧ ';' ∉ e.1 ∧ ';' ∉ e.2

theorem foldl_readField {es : List (QString × QString)} (h : ∀ e ∈ es, e.1 ≠ [] ∧ '=' ∉ e.1)
    (s : Session) :
    (es.map fieldText).foldl readField s = es.foldl (fun s e => s.setParam e.1 e.2) s := by
  induction es generalizing s with
  | nil => rfl
  | cons e es ih =>
    obtain ⟨hne, heq⟩ := h e List.mem_cons_self
    rw [List.map_cons, List.foldl_cons, ih fun d hd => h d (List.mem_cons_of_mem _ hd),
      List.foldl_cons, readField, fieldText, cutAtEquals_text hne heq]

theorem foldl_setParam (es : List (QString × QString)) (s : Session) :
    es.foldl (fun s e => s.setParam e.1 e.2) s =
      s.setParams (es.foldl (fun m e => m.insert e.1 e.2) s.params) := by
  induction es generalizing s with
  | nil => rfl
  | cons e es ih => exact ih _

theorem readFields_all {P : QString × QString → Prop} {fields : List QString}
    (hf : ∀ f ∈ fields, ∀ e, cutAtEquals f = some e → P e) {s : Session}
    (hs : ∀ e ∈ s.params.entries, P e) :
    ∀ e ∈ (fields.foldl readField s).params.entries, P e := by
  induction fields generalizing s with
  | nil => exact hs
  | cons f fields ih =>
    refine ih (fun g hg => hf g (List.mem_cons_of_mem _ hg)) ?_
    unfold readField
    split
    · rename_i key value hcut
      intro e he
      rcases QMap.mem_insertEntry he with rfl | he
      · exact hf f List.mem_cons_self _ hcut
      · exact hs e he
    · exact hs

theorem cutAtEquals_clean {field : QString} (hf : ';' ∉ field) {e : QString × QString}
    (h : cutAtEquals field = some e) : CleanField e := by
  obtain ⟨hne, heq, rfl⟩ := mem_cutAtEquals h
  exact ⟨hne, heq, fun hm => hf (List.mem_append_left _ hm),
    fun hm => hf (List.mem_append_right _ (List.mem_cons_of_mem _ hm))⟩

theorem readField_keeps (s : Session) (field : QString) :
    (readField s field).name = s.name ∧ (readField s field).type = s.type := by
  unfold readField
  split <;> exact ⟨rfl, rfl⟩

theorem readFields_keeps (fields : List QString) (s : Session) :
    (fields.foldl readField s).name = s.name ∧ (fields.foldl readField s).type = s.type := by
  induction fields generalizing s with
  | nil => exact ⟨rfl, rfl⟩
  | cons f fields ih =>
    obtain ⟨hname, htype⟩ := ih (readField s f)
    exact ⟨hname.trans (readField_keeps s f).1, htype.trans (readField_keeps s f).2⟩

theorem header_prefix_iff {name : QString} (h : '=' ∉ name) (rest : QString) :
    "[Folder=".toList.isPrefixOf (name ++ '=' :: rest) = true ↔ name = "[Folder".toList := by
  rw [List.isPrefixOf_iff_prefix]
  constructor
  · rintro ⟨t, ht⟩
    have hcut := congrArg (List.takeWhile (· != '=')) ht
    rw [(span_equals h rest).1] at hcut
    exact hcut.symm
  · rintro rfl
    exact ⟨rest, rfl⟩

theorem head?_named {name : QString} (h : name ≠ []) (rest : QString) :
    (name ++ rest).head? = name.head? := by
  obtain ⟨c, cs, rfl⟩ := List.exists_cons_of_ne_nil h
  rfl

theorem readLine_named {l name rest : QString} (ht : trimmed l = name ++ '=' :: rest)
    (hne : name ≠ []) (heq : '=' ∉ name) (hhash : name.head? ≠ some '#')
    (hheader : name = "[Folder".toList → ('=' :: rest).getLast? ≠ some ']') :
    readLine l =
      match rest.splitOn ';' with
      | [] => .skip
      | type :: fields =>
          .session (fields.foldl readField ⟨name, sessionTypeFromString type, .empty⟩) := by
  have hno : ¬("[Folder=".toList.isPrefixOf (name ++ '=' :: rest) = true ∧
      (name ++ '=' :: rest).getLast? = some ']') := by
    rintro ⟨hp, hlast⟩
    rw [header_prefix_iff heq] at hp
    exact hheader hp (by simpa [List.getLast?_append, List.getLast?_cons] using hlast)
  simp only [readLine, ht, cutAtEquals_text hne heq]
  exact (if_neg (by simp [head?_named hne, hhash])).trans (if_neg hno)

theorem readLine_session {l : QString} {s : Session} (h : readLine l = .session s) :
    ∃ rest type fields, trimmed l = s.name ++ '=' :: rest ∧ s.name ≠ [] ∧ '=' ∉ s.name ∧
      s.name.head? ≠ some '#' ∧
      (s.name = "[Folder".toList → ('=' :: rest).getLast? ≠ some ']') ∧
      rest.splitOn ';' = type :: fields ∧
      s = fields.foldl readField ⟨s.name, sessionTypeFromString type, .empty⟩ := by
  simp only [readLine] at h
  split at h
  · cases h
  · rename_i hskip
    split at h
    · cases h
    · rename_i hheader
      split at h
      · cases h
      · rename_i name rest hcut
        obtain ⟨hne, heq, ht⟩ := mem_cutAtEquals hcut
        split at h
        · cases h
        · rename_i type fields hsplit
          obtain rfl := Line.session.inj h
          have hname := (readFields_keeps fields ⟨name, sessionTypeFromString type, .empty⟩).1
          simp only at hname
          rw [hname]
          rw [ht] at hskip hheader
          refine ⟨rest, type, fields, ht, hne, heq,
            fun hc => hskip (.inr ((head?_named hne _).trans hc)),
            fun hn hlast => hheader ⟨(header_prefix_iff heq rest).mpr hn, ?_⟩, hsplit, rfl⟩
          rw [List.getLast?_append, hlast]
          rfl

structure Writable (s : Session) : Prop where
  named : s.name ≠ []
  unequal : '=' ∉ s.name
  begins : ∀ c, s.name.head? = some c → isSpace c = false ∧ c ≠ '#'
  fields : ∀ e ∈ s.params.entries, CleanField e
  ends : ∀ e, s.params.entries.getLast? = some e → ∀ c, e.2.getLast? = some c →
    isSpace c = false ∧ (s.name = "[Folder".toList → c ≠ ']')

theorem fields_of_stripLast {s : Session} (hfields : ∀ e ∈ s.params.entries, CleanField e) :
    ∃ m : QMap QString, m.entries = stripLast s.params.entries ∧
      (body (sessionTypeToString s.type) (stripLast s.params.entries)).splitOn ';' =
        sessionTypeToString s.type :: (stripLast s.params.entries).map fieldText ∧
      ((stripLast s.params.entries).map fieldText).foldl readField ⟨s.name, s.type, .empty⟩ =
        s.setParams m := by
  have hclean : ∀ e ∈ stripLast s.params.entries, CleanField e := by
    intro e he
    obtain ⟨d, hd, hkey, hvalue⟩ := mem_stripLast he
    obtain ⟨hne, heq, hsemi, hvalue'⟩ := hfields d hd
    exact ⟨hkey ▸ hne, hkey ▸ heq, hkey ▸ hsemi, fun hm => hvalue' (hvalue _ hm)⟩
  have hsorted : (stripLast s.params.entries).Pairwise fun a b => units a.1 < units b.1 := by
    have h := s.params.sorted
    rw [← @List.pairwise_map _ _ Prod.fst (fun a b => units a < units b)] at h ⊢
    rwa [keys_stripLast]
  refine ⟨⟨_, hsorted⟩, rfl, ?_, ?_⟩
  · rw [body, joinFields, List.splitOn_intercalate _ _ (List.cons_ne_nil _ _)]
    intro f hf
    rcases List.mem_cons.mp hf with rfl | hf
    · exact semicolon_notMem_type s.type
    · obtain ⟨e, he, rfl⟩ := List.mem_map.mp hf
      obtain ⟨-, -, hkey, hvalue⟩ := hclean e he
      simp [fieldText, hkey, hvalue]
  · rw [foldl_readField fun e he => ⟨(hclean e he).1, (hclean e he).2.1⟩, foldl_setParam]
    have hentries := QMap.foldl_insert_entries .empty (stripLast s.params.entries) hsorted
    exact Session.ext rfl rfl (QMap.ext hentries)

theorem readLine_writable {s : Session} (h : Writable s) :
    readLine (sessionText s) = .session s := by
  have hstrip : stripLast s.params.entries = s.params.entries := by
    rw [stripLast_eq_self_iff]
    intro e he
    rw [rstrip_eq_self_iff]
    exact fun c hc => (h.ends e he c hc).1
  obtain ⟨m, hm, hsplit, hfold⟩ := fields_of_stripLast h.fields
  have hline := readLine_named
    (trimmed_sessionText h.named fun c hc => (h.begins c hc).1) h.named h.unequal
    (fun hc => (h.begins '#' hc).2 rfl) (by
      intro hn
      rw [List.getLast?_cons, hstrip, getLast?_body]
      cases hl : s.params.entries.getLast? with
      | none =>
        cases s.type <;> decide
      | some e =>
        cases hv : e.2.getLast? with
        | none => simp [List.getLast?_cons, hv]
        | some c => simpa [List.getLast?_cons, hv] using (h.ends e hl c hv).2 hn)
  have hparams : m = s.params := QMap.ext (hm.trans hstrip)
  rw [hsplit] at hline
  simp only [sessionTypeFromString_toString, hfold, hparams] at hline
  exact hline

theorem writable_of_readLine {s : Session} (h : readLine (sessionText s) = .session s) :
    Writable s := by
  obtain ⟨rest, type, fields, ht, hne, heq, hhash, hheader, hsplit, hs⟩ := readLine_session h
  have hspace : ∀ c, s.name.head? = some c → isSpace c = false := by
    intro c hc
    exact head?_trimmed (ht ▸ (head?_named hne _).trans hc)
  have hrest : rest = body (sessionTypeToString s.type) (stripLast s.params.entries) := by
    rw [trimmed_sessionText hne hspace] at ht
    exact (List.cons.inj (List.append_cancel_left ht)).2.symm
  have hpieces : ∀ f ∈ fields, ∀ e, cutAtEquals f = some e → CleanField e := by
    intro f hf e
    exact cutAtEquals_clean (not_mem_splitOn ';' rest f (hsplit ▸ List.mem_cons_of_mem _ hf))
  have hfields : ∀ e ∈ s.params.entries, CleanField e := by
    rw [congrArg Session.params hs]
    exact readFields_all hpieces nofun
  obtain ⟨m, hm, hsplit', hfold⟩ := fields_of_stripLast hfields
  rw [hrest, hsplit', List.cons.injEq] at hsplit
  obtain ⟨rfl, rfl⟩ := hsplit
  rw [sessionTypeFromString_toString, hfold] at hs
  have hstrip : stripLast s.params.entries = s.params.entries :=
    hm.symm.trans (congrArg (fun x : Session => x.params.entries) hs).symm
  refine ⟨hne, heq, fun c hc => ⟨hspace c hc, ?_⟩, hfields, fun e he c hc => ⟨?_, ?_⟩⟩
  · rintro rfl
    exact hhash hc
  · exact (rstrip_eq_self_iff e.2).mp ((stripLast_eq_self_iff _).mp hstrip e he) c hc
  · rintro hn rfl
    refine hheader hn ?_
    rw [hrest, hstrip, List.getLast?_cons, getLast?_body, he]
    simp [List.getLast?_cons, hc]

theorem readLine_sessionText_iff (s : Session) :
    readLine (sessionText s) = .session s ↔ Writable s :=
  ⟨writable_of_readLine, readLine_writable⟩

theorem headerText_cons (header : QString) :
    headerText header = '[' :: ("Folder=".toList ++ header ++ [']']) := rfl

theorem trimmed_headerText (header : QString) :
    trimmed (headerText header) = headerText header := by
  rw [trimmed_eq, headerText_cons, List.dropWhile_cons_of_neg (by decide), ← headerText_cons]
  exact rstrip_after (by decide) ("[Folder=".toList ++ header) []

theorem headerText_concat (header : QString) :
    headerText header = "[Folder=".toList ++ header ++ [']'] := rfl

theorem path_headerText (header : QString) :
    ((headerText header).drop 8).take ((headerText header).length - 9) = header := by
  have hopen : "[Folder=".toList.length = 8 := by decide +kernel
  have hlength : (headerText header).length - 9 = header.length := by
    rw [headerText_concat, List.length_append, List.length_append, hopen, List.length_singleton]
    omega
  rw [hlength, headerText_concat, List.append_assoc, List.drop_left' hopen, List.take_left]

theorem readLine_headerText (header : QString) : readLine (headerText header) = .folder header := by
  have hprefix : "[Folder=".toList <+: headerText header := by
    rw [headerText_concat, List.append_assoc]
    exact List.prefix_append _ _
  have hlast : (headerText header).getLast? = some ']' := by
    rw [headerText_concat]
    exact List.getLast?_concat
  have hskip : ¬(headerText header = [] ∨ (headerText header).head? = some '#') := by
    rw [headerText_cons]
    simp
  simp only [readLine, trimmed_headerText]
  rw [if_neg hskip, if_pos ⟨List.isPrefixOf_iff_prefix.mpr hprefix, hlast⟩, path_headerText]

end Core
