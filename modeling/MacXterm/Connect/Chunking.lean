import MacXterm.Connect.Appended

namespace Connect

open Qt Rfb Reactor

def Phase.rank : Phase → Nat
  | .version => 4
  | .security => 3
  | .securityResult => 2
  | .serverInit => 1
  | .running => 0

def Event.visible : Event → Bool
  | .stateChanged _ => false
  | .errorOccurred _ => false
  | _ => true

namespace VncConnection

variable {z : Zlib}

def view (out : List Event) : List Event := out.filter Event.visible

theorem view_append (a b : List Event) : view (a ++ b) = view a ++ view b :=
  List.filter_append a b

def failed (c : VncConnection z) : VncConnection z := { c with state := .failed }

theorem fail_rest (c : VncConnection z) (text : QString) :
    ∃ out, c.fail text = .rest c.failed out ∧ view out = [] := by
  unfold fail setState
  by_cases hstate : State.failed ≠ c.state
  · rw [if_pos hstate]
    exact ⟨_, rfl, rfl⟩
  · have hsame : c.failed = c := by
      rw [failed, Decidable.not_not.mp hstate]
    rw [if_neg hstate, hsame]
    exact ⟨_, rfl, rfl⟩

theorem fail_ne_go (c : VncConnection z) (text : QString) {t : VncConnection z}
    {out : List Event} : c.fail text ≠ .go t out := by
  intro h
  obtain ⟨o, hf, -⟩ := fail_rest c text
  cases hf.symm.trans h

def measure (c : VncConnection z) : Nat := c.phase.rank + c.buf.length

-- The length that the source gives to left and remove is exact.
def ServerInitFits (c : VncConnection z) : Prop :=
  c.phase = .serverInit → 24 ≤ c.buf.length → 24 + (rd32be c.buf 20).toNat < 2 ^ 31

structure Regular (c : VncConnection z) : Prop where
  addressable : Addressable c.buf
  serverInit : c.ServerInitFits
  calls : c.phase = .running → c.CallsExact

-- An update that waits for more of its bytes and whose first rectangle is there already.
def Redecodes (c : VncConnection z) : Prop :=
  c.phase = .running ∧
    ∃ r rects, c.update = some (r :: rects) ∧ (decode c.zlib r c.buf 16).1.complete = true

-- Enough bytes behind a refused SecurityResult for the client to take them as another one.
def Rereads (c : VncConnection z) (chunk : QByteArray) : Prop :=
  c.state = .failed ∧ c.phase = .securityResult ∧ 4 ≤ (c.buf ++ chunk).length

def Clean (c : VncConnection z) (chunk : QByteArray) : Prop := ¬ c.Redecodes ∧ ¬ c.Rereads chunk

section Go

variable {c t : VncConnection z} {out : List Event}

theorem length_removeFront_le (b : QByteArray) (n : Int) :
    (removeFront b n).length ≤ b.length := by
  unfold removeFront
  split
  · exact Nat.le_refl _
  · rw [List.length_drop]
    omega

theorem readVersion_go (h : c.readVersion = .go t out) :
    t.phase = .security ∧ t.buf.length ≤ c.buf.length ∧
      ∀ more, (c.receive more).readVersion = .go (t.receive more) out := by
  unfold readVersion at h
  split at h
  · simp at h
  rename_i hsize
  split at h
  · exact absurd h (fail_ne_go _ _)
  rename_i v hv
  obtain ⟨rfl, rfl⟩ := Turn.go.inj h
  refine ⟨rfl, length_removeFront_le c.buf 12, ?_⟩
  intro more
  have htake : (c.buf ++ more).take 12 = c.buf.take 12 :=
    List.take_append_of_le_length (by omega)
  have hlong : ¬ (c.buf ++ more).length < 12 := by
    rw [List.length_append]
    omega
  simp only [readVersion, receive, if_neg hlong, htake, hv,
    removeFront_append (show (12 : Int) ≤ c.buf.length by omega)]

theorem readSecurity_go (h : c.readSecurity = .go t out) :
    t.phase = .securityResult ∧ t.buf.length ≤ c.buf.length ∧
      ∀ more, (c.receive more).readSecurity = .go (t.receive more) out := by
  unfold readSecurity at h
  split at h
  · simp at h
  rename_i hsome
  have hpos : 0 < c.buf.length := List.length_pos_of_ne_nil hsome
  simp only at h
  split at h
  · exact absurd h (fail_ne_go _ _)
  rename_i hcount
  split at h
  · simp at h
  rename_i hsize
  obtain ⟨rfl, rfl⟩ := Turn.go.inj h
  refine ⟨rfl, length_removeFront_le c.buf _, ?_⟩
  intro more
  have hnext : c.buf ++ more ≠ [] := by simp [hsome]
  have hfirst : byteAt (c.buf ++ more) 0 = byteAt c.buf 0 := byteAt_append_left (by omega) more
  have htypes : mid (c.buf ++ more) 1 (byteAt c.buf 0).toNat =
      mid c.buf 1 (byteAt c.buf 0).toNat := mid_append_left (by omega) (by omega) (by omega) more
  have hlong : ¬ (c.buf ++ more).length < 1 + (byteAt c.buf 0).toNat := by
    rw [List.length_append]
    omega
  simp only [readSecurity, receive, if_neg hnext, hfirst, if_neg hcount, htypes, if_neg hlong,
    removeFront_append (show (1 : Int) + (byteAt c.buf 0).toNat ≤ c.buf.length by omega)]

theorem readSecurityResult_go (h : c.readSecurityResult = .go t out) :
    t.phase = .serverInit ∧ t.buf.length ≤ c.buf.length ∧
      ∀ more, (c.receive more).readSecurityResult = .go (t.receive more) out := by
  unfold readSecurityResult at h
  split at h
  · simp at h
  rename_i hsize
  simp only at h
  split at h
  · exact absurd h (fail_ne_go _ _)
  rename_i hresult
  obtain ⟨rfl, rfl⟩ := Turn.go.inj h
  refine ⟨rfl, length_removeFront_le c.buf 4, ?_⟩
  intro more
  have hlong : ¬ (c.buf ++ more).length < 4 := by
    rw [List.length_append]
    omega
  have hsame : rd32be (c.buf ++ more) 0 = rd32be c.buf 0 := rd32be_append_left (by omega) more
  simp only [readSecurityResult, receive, if_neg hlong, hsame, if_neg hresult,
    removeFront_append (show (4 : Int) ≤ c.buf.length by omega)]

theorem readServerInit_go (h : c.readServerInit = .go t out) :
    t.phase = .running ∧ t.buf.length ≤ c.buf.length ∧
      ((24 ≤ c.buf.length → 24 + (rd32be c.buf 20).toNat < 2 ^ 31) →
        ∀ more, (c.receive more).readServerInit = .go (t.receive more) out) := by
  unfold readServerInit at h
  split at h
  · simp at h
  rename_i hshort
  simp only at h
  split at h
  · simp at h
  rename_i hsize
  have ⟨ht, hout⟩ := Turn.go.inj h
  have hphase : t.phase = .running := by rw [← ht]
  have hbuf : t.buf = removeFront c.buf (24 + rd32be c.buf 20).toNat := by
    rw [← ht]
    unfold setState
    split
    · rfl
    · rfl
  refine ⟨hphase, hbuf ▸ length_removeFront_le _ _, ?_⟩
  intro hfits more
  have hname := hfits (by omega)
  have hexact : (24 + rd32be c.buf 20).toNat = 24 + (rd32be c.buf 20).toNat := by
    have h24 : (24 : UInt32).toNat = 24 := rfl
    rw [UInt32.toNat_add, h24, Nat.mod_eq_of_lt]
    omega
  have hint : int32 (24 + rd32be c.buf 20).toNat = (24 + rd32be c.buf 20).toNat := by
    rw [int32_eq] <;> omega
  rw [hint] at hsize
  have htake : (c.buf ++ more).take (24 + rd32be c.buf 20).toNat =
      c.buf.take (24 + rd32be c.buf 20).toNat := List.take_append_of_le_length (by omega)
  simp only [readServerInit, receive, rd32be_append_left (by omega : (20 : Int) + 4 ≤ c.buf.length),
    hint, htake, List.length_append]
  rw [if_neg (by omega), if_neg (by omega), removeFront_append (by omega)]
  unfold setState at ht hout ⊢
  subst ht hout
  simp only
  split
  · rfl
  · rfl

theorem update_append {rects : List Rectangle} (h : c.update = some rects) (more : QByteArray) :
    (c.receive more).update = some rects := by
  have hlength := length_of_update h
  unfold update at h ⊢
  split at h
  · simp at h
  · rename_i hstart
    obtain ⟨hsome, hfirst⟩ := not_or.mp hstart
    have hnext : ¬ ((c.receive more).buf = [] ∨ byteAt (c.receive more).buf 0 ≠ 0) := by
      rw [receive, byteAt_append_left (by omega)]
      rintro (hnil | hne)
      · exact hsome (List.append_eq_nil_iff.mp hnil).1
      · exact hfirst hne
    rw [if_neg hnext]
    exact parseFramebufferUpdate_append h more

theorem readUpdate_eq (c : VncConnection z) :
    c.readUpdate =
      match c.update with
      | none => .rest c []
      | some rects =>
          let u := decodeRects c.buf rects 4 c.zlib
          if !u.complete then .rest { c with zlib := u.zlib } (u.decoded.map signal)
          else .go { c with zlib := u.zlib, buf := removeFront c.buf u.off }
            (u.decoded.map signal) := by
  unfold readUpdate update
  split
  · rfl
  · rfl

theorem readUpdate_append (ha : Addressable c.buf) (hcalls : c.CallsExact)
    (h : c.readUpdate = .go t out) (more : QByteArray) :
    (c.receive more).readUpdate = .go (t.receive more) out := by
  have hfits := callsFit_of_exact ha hcalls
  rw [readUpdate_eq] at h ⊢
  cases hu : c.update with
  | none => simp [hu] at h
  | some rects =>
    have hlength := length_of_update hu
    unfold CallsExact calls at hcalls
    simp only [hu] at h hcalls
    cases hc : (decodeRects c.buf rects 4 c.zlib).complete with
    | false => simp [hc] at h
    | true =>
      have hremoval : c.removal = some (decodeRects c.buf rects 4 c.zlib).off := by
        simp only [removal, hu, hc, if_true]
      obtain ⟨-, hend⟩ := removal_bounds ha hfits hremoval
      have hsame := decodeRects_append ha rects c.zlib (by decide) (by omega) hcalls hc more
      rw [hc] at h
      obtain ⟨rfl, rfl⟩ := Turn.go.inj h
      simp only [update_append hu more]
      simp only [receive, hsame, hc, removeFront_append hend]
      rfl

end Go

section Rest

variable {c t : VncConnection z} {out : List Event}

theorem readVersion_rest (h : c.readVersion = .rest t out) :
    (t = c ∧ out = []) ∨
      t = c.failed ∧ view out = [] ∧
        ∀ (d : VncConnection z) more, d.buf = c.buf ++ more →
          d.readVersion = d.fail "Bad RFB version" := by
  unfold readVersion at h
  split at h
  · exact .inl (by simpa [eq_comm] using h)
  rename_i hsize
  split at h
  · rename_i hnone
    obtain ⟨o, hf, hview⟩ := fail_rest c "Bad RFB version"
    rw [hf] at h
    obtain ⟨rfl, rfl⟩ := Turn.rest.inj h
    refine .inr ⟨rfl, hview, ?_⟩
    intro d more hd
    have hlong : ¬ d.buf.length < 12 := by
      rw [hd, List.length_append]
      omega
    have htake : d.buf.take 12 = c.buf.take 12 := by
      rw [hd]
      exact List.take_append_of_le_length (by omega)
    simp only [readVersion, if_neg hlong, htake, hnone]
  · simp at h

theorem readSecurity_rest (h : c.readSecurity = .rest t out) :
    (t = c ∧ out = []) ∨
      t = c.failed ∧ view out = [] ∧
        ∀ (d : VncConnection z) more, d.buf = c.buf ++ more →
          d.readSecurity = d.fail "Server rejected connection" := by
  unfold readSecurity at h
  split at h
  · exact .inl (by simpa [eq_comm] using h)
  rename_i hsome
  have hpos : 0 < c.buf.length := List.length_pos_of_ne_nil hsome
  simp only at h
  split at h
  · rename_i hcount
    obtain ⟨o, hf, hview⟩ := fail_rest c "Server rejected connection"
    rw [hf] at h
    obtain ⟨rfl, rfl⟩ := Turn.rest.inj h
    refine .inr ⟨rfl, hview, ?_⟩
    intro d more hd
    have hnext : d.buf ≠ [] := by
      rw [hd]
      simp [hsome]
    have hfirst : byteAt d.buf 0 = byteAt c.buf 0 := by
      rw [hd]
      exact byteAt_append_left (by omega) more
    simp only [readSecurity, if_neg hnext, hfirst, if_pos hcount]
  · split at h
    · exact .inl (by simpa [eq_comm] using h)
    · simp at h

theorem readSecurityResult_rest (h : c.readSecurityResult = .rest t out) :
    (t = c ∧ out = []) ∨
      t.state = .failed ∧ t.phase = c.phase ∧ view out = [] ∧
        ∀ more, (c.receive more).readSecurityResult = .rest (t.receive more) out := by
  unfold readSecurityResult at h
  split at h
  · exact .inl (by simpa [eq_comm] using h)
  rename_i hsize
  simp only at h
  split at h
  · rename_i hresult
    obtain ⟨o, hf, hview⟩ := fail_rest { c with buf := removeFront c.buf 4 } "VNC authentication failed"
    have hout := h
    rw [hf] at h
    obtain ⟨rfl, rfl⟩ := Turn.rest.inj h
    refine .inr ⟨rfl, rfl, hview, ?_⟩
    intro more
    have hlong : ¬ (c.buf ++ more).length < 4 := by
      rw [List.length_append]
      omega
    have hsame : rd32be (c.buf ++ more) 0 = rd32be c.buf 0 := rd32be_append_left (by omega) more
    simp only [readSecurityResult, receive, if_neg hlong, hsame, if_pos hresult,
      removeFront_append (show (4 : Int) ≤ c.buf.length by omega)]
    unfold fail setState at hf ⊢
    by_cases hstate : State.failed ≠ c.state
    · simp only [if_pos hstate] at hf ⊢
      obtain ⟨-, rfl⟩ := Turn.rest.inj hf
      rfl
    · simp only [if_neg hstate] at hf ⊢
      obtain ⟨-, rfl⟩ := Turn.rest.inj hf
      rw [failed, ← Decidable.not_not.mp hstate]
  · simp at h

theorem readServerInit_rest (h : c.readServerInit = .rest t out) : t = c ∧ out = [] := by
  unfold readServerInit at h
  split at h
  · simpa [eq_comm] using h
  · simp only at h
    split at h
    · simpa [eq_comm] using h
    · simp at h

theorem readUpdate_rest (hphase : c.phase = .running) (h : c.readUpdate = .rest t out)
    (hclean : ¬ t.Redecodes) : t = c ∧ out = [] := by
  rw [readUpdate_eq] at h
  cases hu : c.update with
  | none => simpa [hu, eq_comm] using h
  | some rects =>
    simp only [hu] at h
    cases rects with
    | nil => simp [decodeRects] at h
    | cons r rects =>
      have hheader : int32 (4 + 12) = 16 := by decide
      cases hc : (decode c.zlib r c.buf 16).1.complete with
      | false =>
        have hzlib := decode_waiting hc
        simp only [decodeRects, hheader, hc, Bool.not_false, if_true, hzlib, List.map_nil] at h
        obtain ⟨rfl, rfl⟩ := Turn.rest.inj h
        exact ⟨rfl, rfl⟩
      | true =>
        refine absurd ?_ hclean
        split at h
        · obtain ⟨rfl, -⟩ := Turn.rest.inj h
          refine ⟨hphase, r, rects, hu, ?_⟩
          exact (decode_extent _ c.zlib r c.buf 16).1.trans hc
        · simp at h

end Rest

section Turns

variable {c t : VncConnection z} {out : List Event}

theorem turn_go (h : c.turn = .go t out) :
    c.phase = .running ∧ c.readUpdate = .go t out ∨
      t.phase.rank < c.phase.rank ∧ t.buf.length ≤ c.buf.length := by
  cases hp : c.phase with
  | version =>
    rw [turn_version hp] at h
    obtain ⟨hnext, hle, -⟩ := readVersion_go h
    exact .inr ⟨by rw [hnext]; decide, hle⟩
  | security =>
    rw [turn_security hp] at h
    obtain ⟨hnext, hle, -⟩ := readSecurity_go h
    exact .inr ⟨by rw [hnext]; decide, hle⟩
  | securityResult =>
    rw [turn_securityResult hp] at h
    obtain ⟨hnext, hle, -⟩ := readSecurityResult_go h
    exact .inr ⟨by rw [hnext]; decide, hle⟩
  | serverInit =>
    rw [turn_serverInit hp] at h
    obtain ⟨hnext, hle, -⟩ := readServerInit_go h
    exact .inr ⟨by rw [hnext]; decide, hle⟩
  | running =>
    rw [turn_running hp] at h
    exact .inl ⟨rfl, h⟩

theorem receive_phase (c : VncConnection z) (more : QByteArray) :
    (c.receive more).phase = c.phase := rfl

theorem turn_stable : Stable turn receive (Regular (z := z)) := by
  intro c t out more hc h
  cases hp : c.phase with
  | version =>
    rw [turn_version hp] at h
    rw [turn_version ((receive_phase c more).trans hp)]
    exact (readVersion_go h).2.2 more
  | security =>
    rw [turn_security hp] at h
    rw [turn_security ((receive_phase c more).trans hp)]
    exact (readSecurity_go h).2.2 more
  | securityResult =>
    rw [turn_securityResult hp] at h
    rw [turn_securityResult ((receive_phase c more).trans hp)]
    exact (readSecurityResult_go h).2.2 more
  | serverInit =>
    rw [turn_serverInit hp] at h
    rw [turn_serverInit ((receive_phase c more).trans hp)]
    exact (readServerInit_go h).2.2 (hc.serverInit hp) more
  | running =>
    rw [turn_running hp] at h
    rw [turn_running ((receive_phase c more).trans hp)]
    exact readUpdate_append hc.addressable (hc.calls hp) h more

theorem resumes_same {s : VncConnection z} {more : QByteArray} {u : VncConnection z}
    {out out' : List Event} (h : t = s ∧ out = [])
    (hs : Settles turn (t.receive more) u out') :
    ∃ all, Settles turn (s.receive more) u all ∧ view all = view (out ++ out') := by
  obtain ⟨rfl, rfl⟩ := h
  exact ⟨out', hs, rfl⟩

theorem resumes_failed {s u : VncConnection z} {more : QByteArray} {out out' : List Event}
    (text : QString) (hview : view out = [])
    (hfail : ∀ d : VncConnection z, d.phase = s.phase → d.buf = s.buf ++ more → turn d = d.fail text)
    (hs : Settles turn (s.failed.receive more) u out') :
    ∃ all, Settles turn (s.receive more) u all ∧ view all = view (out ++ out') := by
  obtain ⟨o, ho, hnone⟩ := fail_rest (s.receive more) text
  obtain ⟨o', ho', hnone'⟩ := fail_rest (s.failed.receive more) text
  have hfirst := settles_rest ((hfail (s.receive more) rfl rfl).trans ho)
  have hagain := settles_rest ((hfail (s.failed.receive more) rfl rfl).trans ho')
  obtain ⟨rfl, rfl⟩ := hs.unique hagain
  refine ⟨o, hfirst, ?_⟩
  rw [view_append, hnone, hview, hnone']
  rfl

theorem waits_short {more : QByteArray} (hp : t.phase = .securityResult)
    (hshort : (t.receive more).buf.length < 4) :
    turn (t.receive more) = .rest (t.receive more) [] := by
  rw [turn_securityResult ((receive_phase t more).trans hp), readSecurityResult, if_pos hshort]

theorem turn_resumes : Resumes turn receive view (Clean (z := z)) := by
  intro s t out more u out' h hclean hs
  obtain ⟨hdecodes, hrereads⟩ := hclean
  cases hp : s.phase with
  | version =>
    rw [turn_version hp] at h
    rcases readVersion_rest h with hsame | ⟨rfl, hview, hfail⟩
    · exact resumes_same hsame hs
    · refine resumes_failed "Bad RFB version" hview ?_ hs
      intro d hd hbuf
      exact (turn_version (hd.trans hp)).trans (hfail d more hbuf)
  | security =>
    rw [turn_security hp] at h
    rcases readSecurity_rest h with hsame | ⟨rfl, hview, hfail⟩
    · exact resumes_same hsame hs
    · refine resumes_failed "Server rejected connection" hview ?_ hs
      intro d hd hbuf
      exact (turn_security (hd.trans hp)).trans (hfail d more hbuf)
  | securityResult =>
    rw [turn_securityResult hp] at h
    rcases readSecurityResult_rest h with hsame | ⟨hstate, hphase, hview, hfirst⟩
    · exact resumes_same hsame hs
    · have hshort : (t.receive more).buf.length < 4 :=
        Nat.lt_of_not_le fun hlong => hrereads ⟨hstate, hphase.trans hp, hlong⟩
      have hwait := waits_short (hphase.trans hp) hshort
      obtain ⟨rfl, rfl⟩ := hs.unique (settles_rest hwait)
      have hfed : turn (s.receive more) = .rest (t.receive more) out :=
        (turn_securityResult ((receive_phase s more).trans hp)).trans (hfirst more)
      refine ⟨out, settles_rest hfed, ?_⟩
      rw [List.append_nil]
  | serverInit =>
    rw [turn_serverInit hp] at h
    exact resumes_same (readServerInit_rest h) hs
  | running =>
    rw [turn_running hp] at h
    exact resumes_same (readUpdate_rest hp h hdecodes) hs

theorem clean_append {s : VncConnection z} {a b : QByteArray} (ha : s.Clean a)
    (hs : Settles turn (s.receive a) t out) (hb : t.Clean b) : s.Clean (a ++ b) := by
  obtain ⟨hdecodes, hrereads⟩ := ha
  refine ⟨hdecodes, ?_⟩
  rintro ⟨hstate, hphase, hlong⟩
  have hshort : (s.receive a).buf.length < 4 :=
    Nat.lt_of_not_le fun h => hrereads ⟨hstate, hphase, h⟩
  obtain ⟨rfl, rfl⟩ := hs.unique (settles_rest (waits_short hphase hshort))
  refine hb.2 ⟨hstate, hphase, ?_⟩
  rwa [receive, List.append_assoc]

end Turns

section Run

variable {c t : VncConnection z} {out : List Event}

theorem measure_lt (hc : c.Regular) (h : c.turn = .go t out) : t.measure < c.measure := by
  unfold measure
  rcases turn_go h with ⟨hphase, hgo⟩ | ⟨hrank, hle⟩
  · have hfit := callsFit_of_exact hc.addressable (hc.calls hphase)
    have hshrink := readUpdate_shrinks hc.addressable hfit hgo
    obtain ⟨_, -, -, hp⟩ := readUpdate_go hgo
    rw [hp]
    omega
  · omega

-- A turn of the loop that goes on without making the buffer shorter is taken for ever.
theorem measure_lt_or_never (h : c.turn = .go t out) :
    t.measure < c.measure ∨ ∀ u more, ¬ Settles turn t u more := by
  rcases turn_go h with ⟨hphase, hgo⟩ | ⟨hrank, hle⟩
  · obtain ⟨off, hr, hbuf, hp⟩ := readUpdate_go hgo
    by_cases hoff : off ≤ 0
    · have hkeep : removeFront c.buf off = c.buf := if_pos hoff
      rw [hkeep] at hbuf
      refine .inr ?_
      rintro u more ⟨fuel, hrun⟩
      rw [repeats_forever (hp.trans hphase) ((removal_congr hbuf).trans hr)
        (by rw [hbuf, hkeep]) fuel] at hrun
      simp at hrun
    · have hlength : 4 ≤ c.buf.length := by
        unfold removal at hr
        cases hu : c.update with
        | none => simp [hu] at hr
        | some rects => exact length_of_update hu
      refine .inl ?_
      rw [measure, measure, hp, hbuf, removeFront, if_neg hoff, List.length_drop]
      omega
  · refine .inl ?_
    unfold measure
    omega

theorem rank_le (p : Phase) : p.rank ≤ 4 := by
  cases p <;> decide

theorem onReadyRead_iff {data : QByteArray} :
    c.onReadyRead data = some (t, out) ↔ Settles turn (c.receive data) t out := by
  constructor
  · intro h
    exact ⟨_, h⟩
  · intro h
    refine h.run measure (fun _ _ _ hgo => measure_lt_or_never hgo) ?_
    have hrank := rank_le c.phase
    have hbuf : (c.receive data).buf = c.buf ++ data := rfl
    rw [measure, receive_phase, hbuf]
    omega

def receiveAll : VncConnection z → List QByteArray → Option (VncConnection z × List Event)
  | c, [] => some (c, [])
  | c, chunk :: chunks =>
      match c.onReadyRead chunk with
      | none => none
      | some (t, out) => (receiveAll t chunks).map fun r => (r.1, out ++ r.2)

theorem receiveAll_of_receives {chunks : List QByteArray}
    (h : Receives turn receive c chunks t out) : c.receiveAll chunks = some (t, out) := by
  induction h with
  | nil c => rfl
  | cons hsettle _ ih =>
    simp only [receiveAll, onReadyRead_iff.mpr hsettle, ih, Option.map_some]

abbrev CleanChunks (c : VncConnection z) (chunks : List QByteArray) : Prop :=
  CleanRun turn receive Regular Clean c chunks

theorem clean_receives {chunks : List QByteArray} (h : c.CleanChunks chunks) :
    ∃ t out, Receives turn receive c chunks t out := by
  induction h with
  | nil c => exact ⟨c, [], .nil c⟩
  | cons _ hok _ ih =>
    obtain ⟨t, out, hs⟩ := settles_measure measure (fun _ _ _ hc hgo => measure_lt hc hgo) hok
    obtain ⟨u, more, hr⟩ := ih t out hs
    exact ⟨u, out ++ more, .cons hs hr⟩

theorem receive_receive (c : VncConnection z) (a b : QByteArray) :
    (c.receive a).receive b = c.receive (a ++ b) := by
  rw [receive, receive, receive, List.append_assoc]

end Run

theorem chunking_independent (chunks : List QByteArray)
    (h : (connecting (z := z)).CleanChunks chunks) :
    ∃ t out all, (connecting (z := z)).receiveAll chunks = some (t, out) ∧
      connecting.onReadyRead chunks.flatten = some (t, all) ∧ view all = view out := by
  obtain ⟨t, out, hr⟩ := clean_receives h
  cases chunks with
  | nil =>
    cases hr
    exact ⟨connecting, [], [], rfl, rfl, rfl⟩
  | cons chunk chunks =>
    obtain ⟨all, hsettle, hview⟩ := receives_flatten view_append receive_receive turn_stable
      turn_resumes (fun _ _ _ _ _ => clean_append) hr h
    exact ⟨t, out, all, receiveAll_of_receives hr, onReadyRead_iff.mpr hsettle, hview⟩

section Handshake

def greeting : QByteArray :=
  [0, 64, 0, 64, 32, 24, 0, 1, 0, 255, 0, 255, 0, 255, 16, 8, 0, 0, 0, 0, 0, 0, 0, 0]

def handshake : QByteArray := toUtf8 "RFB 003.008\n" ++ [1, 1] ++ [0, 0, 0, 0] ++ greeting

def halves : List QByteArray := [handshake ++ onePixel.take 10, onePixel.drop 10]

def before (phase : Phase) (buf : QByteArray) : VncConnection idleZlib :=
  ⟨phase, buf, ⟨0, 0, 0, 0, [], false⟩, .init, .connecting⟩

theorem before_regular {phase : Phase} {buf : QByteArray} (hphase : phase ≠ .running)
    (ha : Addressable buf) (hfits : (before phase buf).ServerInitFits) :
    (before phase buf).Regular :=
  ⟨ha, hfits, fun h => absurd h hphase⟩

theorem running_regular {buf : QByteArray} (ha : Addressable buf)
    (hcalls : (running buf).CallsExact) : (running buf).Regular :=
  ⟨ha, fun h => absurd h nofun, fun _ => hcalls⟩

theorem callsExact_of_none {c : VncConnection z} (h : c.update = none) : c.CallsExact := by
  unfold CallsExact calls
  rw [h]
  simp

theorem handshake_serverInit :
    ∃ out, turn (before .serverInit (greeting ++ onePixel.take 10)) =
      .go (running (onePixel.take 10)) out := by
  have hsize : (24 + rd32be (greeting ++ onePixel.take 10) 20).toNat = 24 := by decide
  have hint : int32 (24 : Nat) = 24 := by decide
  have hparse : parseServerInit ((greeting ++ onePixel.take 10).take 24) =
      ⟨64, 64, 32, 24, [], true⟩ := by decide
  rw [turn_serverInit rfl]
  simp only [readServerInit, before, hsize, hint, hparse]
  exact ⟨_, rfl⟩

theorem onePixel_waits :
    turn (running (onePixel.take 10)) = .rest (running (onePixel.take 10)) [] := rfl

theorem onePixel_update :
    (running onePixel).update = some [⟨0, 0, 1, 1, EncRaw⟩] := by decide

theorem onePixel_decode (zlib : RfbZlibStream idleZlib) :
    decode zlib ⟨0, 0, 1, 1, EncRaw⟩ onePixel 16 = (.drawn 4 [0xFF030201], zlib) := by
  have hraw : decodeRaw ⟨0, 0, 1, 1, EncRaw⟩ onePixel 16 4 = .drawn 4 [0xFF030201] := by
    decide
  rw [decode_plain (by decide), decodeRect_raw rfl, hraw]

theorem onePixel_callsExact : (running onePixel).CallsExact := by
  have hheader : int32 (4 + 12) = 16 := by decide
  have hbuf : (running onePixel).buf = onePixel := rfl
  simp only [CallsExact, calls, onePixel_update, callsFrom, hbuf, hheader,
    onePixel_decode, RectData.drawn, if_true, List.mem_singleton, forall_eq]
  refine ⟨?_, fun h => absurd h (by decide)⟩
  intro n hn
  rw [announced_raw rfl] at hn
  obtain rfl := Option.some.inj hn
  decide

theorem onePixel_turn :
    turn (running onePixel) = .go (running []) [.rectDecoded 0 0 1 1 [0xFF030201]] := by
  have hheader : int32 (4 + 12) = 16 := by decide
  have hend : int32 (16 + 4) = 20 := by decide
  have hbuf : (running onePixel).buf = onePixel := rfl
  rw [turn_running rfl, readUpdate_eq, onePixel_update]
  simp only [decodeRects, hbuf, hheader, onePixel_decode, RectData.drawn, hend]
  rfl

set_option maxRecDepth 4000 in
theorem handshake_run :
    (∀ c out, Reach turn (connecting.receive (handshake ++ onePixel.take 10)) c out →
      Regular (z := idleZlib) c) ∧
    ∃ out, Settles turn (connecting.receive (handshake ++ onePixel.take 10))
      (running (onePixel.take 10)) out := by
  obtain ⟨_, hinit⟩ := handshake_serverInit
  have hversion : turn (before .version (handshake ++ onePixel.take 10)) =
      .go (before .security ([1, 1] ++ [0, 0, 0, 0] ++ greeting ++ onePixel.take 10)) _ := rfl
  have hsecurity : turn (before .security ([1, 1] ++ [0, 0, 0, 0] ++ greeting ++
      onePixel.take 10)) =
      .go (before .securityResult ([0, 0, 0, 0] ++ greeting ++ onePixel.take 10)) _ := rfl
  have hresult : turn (before .securityResult ([0, 0, 0, 0] ++ greeting ++
      onePixel.take 10)) =
      .go (before .serverInit (greeting ++ onePixel.take 10)) _ := rfl
  constructor
  · refine reach_go hversion ?_ (reach_go hsecurity ?_ (reach_go hresult ?_ (reach_go hinit ?_
      (reach_rest onePixel_waits ?_))))
    · exact before_regular (by decide) (by unfold Addressable; decide) nofun
    · exact before_regular (by decide) (by unfold Addressable; decide) nofun
    · exact before_regular (by decide) (by unfold Addressable; decide) nofun
    · exact before_regular (by decide) (by unfold Addressable; decide) (fun _ _ => by decide)
    · exact running_regular (by unfold Addressable; decide) (callsExact_of_none rfl)
  · exact ⟨_, .go hversion (.go hsecurity (.go hresult (.go hinit
      (settles_rest onePixel_waits))))⟩

theorem halves_clean : (connecting (z := idleZlib)).CleanChunks halves := by
  obtain ⟨hregular, _, hfirst⟩ := handshake_run
  refine .cons ⟨fun h => absurd h.1 (by decide), fun h => absurd h.1 (by decide)⟩ hregular ?_
  intro t out ht
  obtain ⟨rfl, -⟩ := hfirst.unique ht
  refine .cons ⟨?_, fun h => absurd h.1 (by decide)⟩ ?_ (fun t _ _ => .nil t)
  · rintro ⟨-, r, rects, hu, -⟩
    simp [show (running (onePixel.take 10)).update = none from rfl] at hu
  · refine reach_go onePixel_turn ?_ (reach_rest rfl ?_)
    · exact running_regular (by unfold Addressable; decide) onePixel_callsExact
    · exact running_regular (by unfold Addressable; decide) (callsExact_of_none rfl)

theorem chunking_independent_halves :
    (connecting (z := idleZlib)).CleanChunks halves ∧
    ∃ t out all, (connecting (z := idleZlib)).receiveAll halves = some (t, out) ∧
      connecting.onReadyRead halves.flatten = some (t, all) ∧ view all = view out :=
  ⟨halves_clean, chunking_independent halves halves_clean⟩

def twoPixels : QByteArray :=
  [0, 0, 0, 2] ++ [0, 0, 0, 0, 0, 1, 0, 1, 0, 0, 0, 0] ++ [1, 2, 3, 0] ++
    [0, 1, 0, 0, 0, 1, 0, 1, 0, 0, 0, 0] ++ [4, 5, 6, 0]

def views (r : Option (VncConnection idleZlib × List Event)) : Option (List Event) :=
  r.map fun r => view r.2

def rectangles (r : Option (VncConnection idleZlib × List Event)) : Option (List Event) :=
  r.map fun r => r.2.filter fun e => e matches .rectDecoded ..

def cutPixels : List QByteArray :=
  [handshake ++ twoPixels.take 28, twoPixels.drop 28]

theorem twoPixels_emitted_again :
    rectangles (connecting.receiveAll cutPixels) =
      some [.rectDecoded 0 0 1 1 [0xFF030201], .rectDecoded 0 0 1 1 [0xFF030201]] ∧
    rectangles (connecting.onReadyRead cutPixels.flatten) =
      some [.rectDecoded 0 0 1 1 [0xFF030201]] ∧
    views (connecting.receiveAll cutPixels) ≠
      views (connecting.onReadyRead cutPixels.flatten) := by
  decide +kernel

end Handshake

end VncConnection

end Connect
