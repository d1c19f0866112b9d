import MacXterm.Connect.Chunking

namespace Connect

open Qt Rfb Reactor

def Event.Active : Event → Prop
  | .write _ => True
  | .serverReady _ _ _ => True
  | .rectDecoded _ _ _ _ _ => True
  | .stateChanged s => s = .connected
  | .errorOccurred _ => False
  | .copyRect _ _ _ _ _ _ => False

namespace VncConnection

variable {z : Zlib} {c t u : VncConnection z} {out : List Event}

def Silent : VncConnection z → List QByteArray → Prop
  | _, [] => True
  | c, chunk :: chunks =>
      ∃ t out, c.onReadyRead chunk = some (t, out) ∧ (∀ e ∈ out, ¬e.Active) ∧ Silent t chunks

-- Each call looks at one word at most, and none of these is zero.
def Refused : QByteArray → List QByteArray → Prop
  | _, [] => True
  | buf, chunk :: chunks =>
      if (buf ++ chunk).length < 4 then Refused (buf ++ chunk) chunks
      else rd32be (buf ++ chunk) 0 ≠ 0 ∧ Refused (removeFront (buf ++ chunk) 4) chunks

structure Dead (c : VncConnection z) : Prop where
  state : c.state = .failed
  phase : c.phase ≠ .securityResult
  turn : ∃ text, ∀ more, VncConnection.turn (c.receive more) = (c.receive more).fail text

theorem fail_again (h : c.state = .failed) (text : QString) :
    c.fail text = .rest c [.errorOccurred text] := by
  rw [fail, setState, if_neg (fun hne => hne h.symm)]
  rfl

theorem failed_mem_signal (l : List (Rectangle × RectData)) :
    Event.stateChanged .failed ∉ l.map signal := by
  intro h
  obtain ⟨p, -, hp⟩ := List.mem_map.mp h
  unfold signal at hp
  split at hp <;> simp at hp

theorem turn_go_not_failed (h : c.turn = .go t out) : Event.stateChanged .failed ∉ out := by
  cases hp : c.phase with
  | version =>
    rw [turn_version hp, readVersion] at h
    split at h
    · simp at h
    · split at h
      · exact absurd h (fail_ne_go _ _)
      · obtain ⟨-, rfl⟩ := Turn.go.inj h
        simp
  | security =>
    rw [turn_security hp, readSecurity] at h
    split at h
    · simp at h
    · simp only at h
      split at h
      · exact absurd h (fail_ne_go _ _)
      · split at h
        · simp at h
        · obtain ⟨-, rfl⟩ := Turn.go.inj h
          simp
  | securityResult =>
    rw [turn_securityResult hp, readSecurityResult] at h
    split at h
    · simp at h
    · simp only at h
      split at h
      · exact absurd h (fail_ne_go _ _)
      · obtain ⟨-, rfl⟩ := Turn.go.inj h
        simp
  | serverInit =>
    rw [turn_serverInit hp, readServerInit] at h
    split at h
    · simp at h
    · simp only [setState] at h
      split at h
      · simp at h
      · split at h
        · obtain ⟨-, rfl⟩ := Turn.go.inj h
          simp
        · obtain ⟨-, rfl⟩ := Turn.go.inj h
          simp
  | running =>
    rw [turn_running hp, readUpdate_eq] at h
    split at h
    · simp at h
    · simp only at h
      split at h
      · simp at h
      · obtain ⟨-, rfl⟩ := Turn.go.inj h
        exact failed_mem_signal _

theorem reach_not_failed (h : Reach turn c t out) : Event.stateChanged .failed ∉ out := by
  induction h with
  | refl s => exact List.not_mem_nil
  | go hgo _ ih =>
    rw [List.mem_append]
    exact fun hm => hm.elim (turn_go_not_failed hgo) ih

theorem turn_rest_failed (h : c.turn = .rest t out) (hfailed : Event.stateChanged .failed ∈ out) :
    t.Dead ∨ t.state = .failed ∧ t.phase = .securityResult := by
  cases hp : c.phase with
  | version =>
    rw [turn_version hp] at h
    rcases readVersion_rest h with ⟨-, rfl⟩ | ⟨rfl, -, hfail⟩
    · exact absurd hfailed List.not_mem_nil
    · refine Or.inl ⟨rfl, hp.trans_ne (by decide), "Bad RFB version", fun more => ?_⟩
      exact (turn_version (c := c.failed.receive more) hp).trans (hfail _ more rfl)
  | security =>
    rw [turn_security hp] at h
    rcases readSecurity_rest h with ⟨-, rfl⟩ | ⟨rfl, -, hfail⟩
    · exact absurd hfailed List.not_mem_nil
    · refine Or.inl ⟨rfl, hp.trans_ne (by decide), "Server rejected connection", fun more => ?_⟩
      exact (turn_security (c := c.failed.receive more) hp).trans (hfail _ more rfl)
  | securityResult =>
    rw [turn_securityResult hp] at h
    rcases readSecurityResult_rest h with ⟨-, rfl⟩ | ⟨hstate, hphase, -, -⟩
    · exact absurd hfailed List.not_mem_nil
    · exact Or.inr ⟨hstate, hphase.trans hp⟩
  | serverInit =>
    rw [turn_serverInit hp] at h
    obtain ⟨-, rfl⟩ := readServerInit_rest h
    exact absurd hfailed List.not_mem_nil
  | running =>
    rw [turn_running hp, readUpdate_eq] at h
    split at h
    · obtain ⟨-, rfl⟩ := Turn.rest.inj h
      exact absurd hfailed List.not_mem_nil
    · simp only at h
      split at h
      · obtain ⟨-, rfl⟩ := Turn.rest.inj h
        exact absurd hfailed (failed_mem_signal _)
      · simp at h

theorem entered_failed {data : QByteArray} (h : c.onReadyRead data = some (t, out))
    (hfailed : Event.stateChanged .failed ∈ out) :
    t.Dead ∨ t.state = .failed ∧ t.phase = .securityResult := by
  obtain ⟨s, out, o, hreach, hrest, rfl⟩ := (onReadyRead_iff.mp h).last
  rcases List.mem_append.mp hfailed with hgo | hlast
  · exact absurd hgo (reach_not_failed hreach)
  · exact turn_rest_failed hrest hlast

theorem Dead.silent (h : c.Dead) (chunks : List QByteArray) : c.Silent chunks := by
  induction chunks generalizing c with
  | nil => exact trivial
  | cons chunk chunks ih =>
    obtain ⟨text, hturn⟩ := h.turn
    have hagain : (c.receive chunk).Dead := by
      refine ⟨h.state, h.phase, text, fun more => ?_⟩
      rw [receive_receive]
      exact hturn (chunk ++ more)
    have hrest := (hturn chunk).trans (fail_again hagain.state text)
    refine ⟨c.receive chunk, _, onReadyRead_iff.mpr (settles_rest hrest), ?_, ih hagain⟩
    intro e he
    rw [List.mem_singleton.mp he]
    exact id

theorem silent_refused_iff (chunks : List QByteArray) (hstate : c.state = .failed)
    (hphase : c.phase = .securityResult) : c.Silent chunks ↔ Refused c.buf chunks := by
  induction chunks generalizing c with
  | nil => exact Iff.rfl
  | cons chunk chunks ih =>
    have hblock := turn_securityResult ((receive_phase c chunk).trans hphase)
    have hbuf : (c.receive chunk).buf = c.buf ++ chunk := rfl
    have hnext {t : VncConnection z} {out : List Event}
        (hrest : turn (c.receive chunk) = .rest t out)
        (hquiet : ∀ e ∈ out, ¬e.Active) : c.Silent (chunk :: chunks) ↔ t.Silent chunks := by
      constructor
      · rintro ⟨t', out', hread, -, hsilent⟩
        obtain ⟨rfl, -⟩ := (onReadyRead_iff.mp hread).unique (settles_rest hrest)
        exact hsilent
      · exact fun hsilent => ⟨t, out, onReadyRead_iff.mpr (settles_rest hrest), hquiet, hsilent⟩
    rw [readSecurityResult, hbuf] at hblock
    rw [Refused]
    split at hblock
    · rename_i hshort
      rw [if_pos hshort, hnext hblock (fun e he => absurd he List.not_mem_nil)]
      exact ih hstate hphase
    · rename_i hlong
      rw [if_neg hlong]
      simp only at hblock
      split at hblock
      · rename_i hresult
        let t := { c.receive chunk with buf := removeFront (c.buf ++ chunk) 4 }
        have hrest := hblock.trans (fail_again (c := t) hstate "VNC authentication failed")
        rw [hnext hrest (fun e he => by rw [List.mem_singleton.mp he]; exact id)]
        exact (ih (c := t) hstate hphase).trans (and_iff_right hresult).symm
      · rename_i hresult
        refine iff_of_false ?_ (fun h => hresult h.1)
        rintro ⟨t, out, hread, hquiet, -⟩
        rcases (onReadyRead_iff.mp hread).cases with hrest | ⟨s, o, more, hgo, -, rfl⟩
        · rw [hblock] at hrest
          simp at hrest
        · rw [hblock] at hgo
          obtain ⟨-, rfl⟩ := Turn.go.inj hgo
          exact hquiet (.write [1]) (by simp) trivial

theorem failure_final_iff {data : QByteArray} (h : c.onReadyRead data = some (t, out))
    (hfailed : Event.stateChanged .failed ∈ out) (chunks : List QByteArray) :
    t.Silent chunks ↔ (t.phase = .securityResult → Refused t.buf chunks) := by
  rcases entered_failed h hfailed with hdead | ⟨hstate, hphase⟩
  · exact iff_of_true (hdead.silent chunks) (fun hphase => absurd hphase hdead.phase)
  · exact (silent_refused_iff chunks hstate hphase).trans
      ⟨fun hrefused _ => hrefused, fun hrefused => hrefused hphase⟩

def refusedHandshake : QByteArray := toUtf8 "RFB 003.008\n" ++ [1, 1] ++ [0, 0, 0, 1]

theorem failure_final_bad_version :
    ∃ t, (connecting (z := idleZlib)).onReadyRead (List.replicate 12 0) =
        some (t, [.stateChanged .failed, .errorOccurred "Bad RFB version"]) ∧
      ∀ chunks, t.Silent chunks ↔ (t.phase = .securityResult → Refused t.buf chunks) := by
  have h : (connecting (z := idleZlib)).onReadyRead (List.replicate 12 0) =
      some (_, [.stateChanged .failed, .errorOccurred "Bad RFB version"]) := rfl
  exact ⟨_, h, failure_final_iff h List.mem_cons_self⟩

theorem empty_reason_resumes :
    ¬ ∀ (t : VncConnection idleZlib) out, connecting.onReadyRead refusedHandshake = some (t, out) →
      Event.stateChanged .failed ∈ out → ∀ chunks, t.Silent chunks := by
  intro h
  have hread : (connecting (z := idleZlib)).onReadyRead refusedHandshake =
      some ({ before .securityResult [] with state := .failed },
        [.write (toUtf8 "RFB 003.008\n"), .write [1], .stateChanged .failed,
          .errorOccurred "VNC authentication failed"]) := by
    rfl
  have hsilent := h _ _ hread (by simp) [[0, 0, 0, 0]]
  have hrefused := (silent_refused_iff [[0, 0, 0, 0]] rfl rfl).mp hsilent
  rw [Refused, if_neg (by decide)] at hrefused
  exact hrefused.1 (by decide)

end VncConnection

end Connect
