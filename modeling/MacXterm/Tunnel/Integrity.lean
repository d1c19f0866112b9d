import MacXterm.Connect.SshConnection
import MacXterm.Tunnel.SshTunnel

namespace Tunnel

open Qt Relay Connect

theorem relay_link {l : Link UInt8} {st : Status RelayPoint}
    (h : Reach pumpRelay RelayPoint.Regular l st) : Intact l ∧ (st = .closed → Complete l) :=
  h.intact_of_quiet pumpRelay_careful pumpRelay_quiet (fun _ _ _ hok => hok.1) pumpRelay_closes

theorem remote_link {l : Link UInt8} {st : Status PairPoint}
    (h : Reach remotePair PairPoint.Regular l st) : Intact l ∧ (st = .closed → Complete l) :=
  h.intact_of_quiet remotePair_careful remotePair_quiet (fun _ _ _ hok => hok.1)
    remotePair_closes

theorem jump_link {l : Link UInt8} {st : Status JumpPoint}
    (h : Reach jumpPump JumpPoint.Regular l st) : Intact l ∧ (st = .closed → Complete l) :=
  h.intact jumpPump_careful (fun _ _ _ hok => hok.1) jumpPump_closes

theorem x11_link {l : Link UInt8} {st : Status X11Point}
    (h : Reach x11Pump X11Point.Regular l st) : Intact l ∧ (st = .closed → Complete l) :=
  h.intact_of_quiet x11Pump_careful x11Pump_quiet (fun _ _ _ hok => hok.1) x11Pump_closes

theorem relays_intact (l : Link UInt8) (relay : Status RelayPoint) (jump : Status JumpPoint)
    (listener : RemoteListener) (forwards : X11Forwards) :
    (Reach pumpRelay RelayPoint.Regular l relay → Intact l ∧ (relay = .closed → Complete l)) ∧
    (Server.Reach remotePair false PairPoint.Regular listener →
      (∀ q ∈ listener.pairs, Intact q.1) ∧ ∀ k ∈ listener.closed, Intact k ∧ Complete k) ∧
    (Reach jumpPump JumpPoint.Regular l jump → Intact l ∧ (jump = .closed → Complete l)) ∧
    (Server.Reach x11Pump true X11Point.Regular forwards →
      (∀ q ∈ forwards.pairs, Intact q.1) ∧ ∀ k ∈ forwards.closed, Intact k ∧ Complete k) := by
  refine ⟨?_, ?_, ?_, ?_⟩
  · intro h
    exact relay_link h
  · intro h
    exact h.intact fun _ _ => remote_link
  · intro h
    exact jump_link h
  · intro h
    exact h.intact fun _ _ => x11_link

theorem relay_run : ∃ l, Reach pumpRelay RelayPoint.Regular l .closed ∧
    l.received = [7] ∧ l.content = [1, 2] := by
  have h0 : Reach pumpRelay RelayPoint.Regular _ _ := .start [1, 2]
  have h1 := h0.step (r := .flag false) rfl ⟨trivial, nofun⟩
  have h2 := h1.step (r := .polled 1) rfl ⟨trivial, nofun⟩
  have h3 := h2.step (r := .data [7]) rfl ⟨trivial, by simp⟩
  have h4 := h3.step (r := .took 1) rfl ⟨trivial, by simp⟩
  have h5 := h4.step (r := .data [1, 2]) rfl ⟨trivial, by simp⟩
  have h6 := h5.step (r := .took 2) rfl ⟨rfl, by simp⟩
  have h7 := h6.step (r := .again) rfl ⟨trivial, by simp⟩
  have h8 := h7.step (r := .flag true) rfl ⟨trivial, by simp⟩
  exact ⟨_, h8, rfl, rfl⟩

theorem remote_run : ∃ s : RemoteListener, Server.Reach remotePair false PairPoint.Regular s ∧
    ∃ l ∈ s.closed, l.received = [7] ∧ l.content = [1, 2] := by
  have h0 : Server.Reach remotePair false PairPoint.Regular Server.idle := .start
  have h1 := h0.step (e := .accept [1, 2]) rfl trivial
  have h2 := h1.step (e := .round) rfl trivial
  have h3 := h2.step (e := .reply (.data [1, 2])) rfl (by rintro q ⟨⟩; exact ⟨trivial, by simp⟩)
  have h4 := h3.step (e := .reply (.took 2)) rfl (by rintro q ⟨⟩; exact ⟨rfl, by simp⟩)
  have h5 := h4.step (e := .reply .again) rfl (by rintro q ⟨⟩; exact ⟨trivial, by simp⟩)
  have h6 := h5.step (e := .reply (.polled 1)) rfl (by rintro q ⟨⟩; exact ⟨trivial, by simp⟩)
  have h7 := h6.step (e := .reply (.data [7])) rfl (by rintro q ⟨⟩; exact ⟨trivial, by simp⟩)
  have h8 := h7.step (e := .reply (.took 1)) rfl (by rintro q ⟨⟩; exact ⟨trivial, by simp⟩)
  have h9 := h8.step (e := .reply (.flag true)) rfl (by rintro q ⟨⟩; exact ⟨trivial, by simp⟩)
  exact ⟨_, h9, _, List.mem_singleton.mpr rfl, rfl, rfl⟩

theorem jump_run : ∃ l, Reach jumpPump JumpPoint.Regular l .closed ∧
    l.received = [7] ∧ l.content = [1, 2] := by
  have h0 : Reach jumpPump JumpPoint.Regular _ _ := .start [1, 2]
  have h1 := h0.step (r := .flag false) rfl ⟨⟨trivial, trivial⟩, nofun⟩
  have h2 := h1.step (r := .data [7]) rfl ⟨⟨trivial, trivial⟩, by simp⟩
  have h3 := h2.step (r := .took 1) rfl ⟨⟨trivial, nofun⟩, by simp⟩
  have h4 := h3.step (r := .data [1, 2]) rfl ⟨⟨trivial, trivial⟩, by simp⟩
  have h5 := h4.step (r := .took 2) rfl ⟨⟨rfl, trivial⟩, by simp⟩
  have h6 := h5.step (r := .flag false) rfl ⟨⟨trivial, trivial⟩, nofun⟩
  have h7 := h6.step (r := .again) rfl ⟨⟨trivial, trivial⟩, by simp⟩
  have h8 := h7.step (r := .zero) rfl ⟨⟨trivial, trivial⟩, by simp⟩
  have h9 := h8.step (r := .flag true) rfl ⟨⟨trivial, trivial⟩, by simp⟩
  exact ⟨_, h9, rfl, rfl⟩

theorem x11_run : ∃ s : X11Forwards, Server.Reach x11Pump true X11Point.Regular s ∧
    ∃ l ∈ s.closed, l.received = [7] ∧ l.content = [1, 2] := by
  have h0 : Server.Reach x11Pump true X11Point.Regular Server.idle := .start
  have h1 := h0.step (e := .accept [1, 2]) rfl trivial
  have h2 := h1.step (e := .round) rfl trivial
  have h3 := h2.step (e := .reply (.data [7])) rfl (by rintro q ⟨⟩; exact ⟨trivial, nofun⟩)
  have h4 := h3.step (e := .reply (.took 1)) rfl (by rintro q ⟨⟩; exact ⟨trivial, nofun⟩)
  have h5 := h4.step (e := .reply .zero) rfl (by rintro q ⟨⟩; exact ⟨trivial, nofun⟩)
  have h6 := h5.step (e := .reply (.data [1, 2])) rfl
    (by rintro q ⟨⟩; exact ⟨trivial, by simp⟩)
  have h7 := h6.step (e := .reply (.took 2)) rfl (by rintro q ⟨⟩; exact ⟨rfl, nofun⟩)
  have h8 := h7.step (e := .reply .again) rfl
    (by rintro q ⟨⟩; exact ⟨trivial, fun _ _ => .inr (.inr rfl)⟩)
  exact ⟨_, h8, _, List.mem_singleton.mpr rfl, rfl, rfl⟩

theorem relays_intact_transfers :
    (∃ l : Link UInt8, l.received = [7] ∧ l.content = [1, 2] ∧ Intact l ∧ Complete l) ∧
    (∃ s : RemoteListener, ∃ l ∈ s.closed, l.received = [7] ∧ l.content = [1, 2] ∧
      Intact l ∧ Complete l) ∧
    (∃ l : Link UInt8, l.received = [7] ∧ l.content = [1, 2] ∧ Intact l ∧ Complete l) ∧
    (∃ s : X11Forwards, ∃ l ∈ s.closed, l.received = [7] ∧ l.content = [1, 2] ∧
      Intact l ∧ Complete l) := by
  obtain ⟨l, hl, hr, hc⟩ := relay_run
  obtain ⟨s, hs, k, hk, hkr, hkc⟩ := remote_run
  obtain ⟨j, hj, hjr, hjc⟩ := jump_run
  obtain ⟨t, ht, m, hm, hmr, hmc⟩ := x11_run
  obtain ⟨hrelay, hremote, -, hx11⟩ := relays_intact l .closed .closed s t
  obtain ⟨-, -, hjump, -⟩ := relays_intact j .closed .closed s t
  exact ⟨⟨l, hr, hc, (hrelay hl).1, (hrelay hl).2 rfl⟩,
    ⟨s, k, hk, hkr, hkc, (hremote hs).2 k hk⟩,
    ⟨j, hjr, hjc, (hjump hj).1, (hjump hj).2 rfl⟩,
    ⟨t, m, hm, hmr, hmc, (hx11 ht).2 m hm⟩⟩

theorem relays_drop :
    (∃ l st, Reach pumpRelay (fun _ _ _ => True) l st ∧ ¬Intact l) ∧
    (∃ l, Reach pumpRelay (fun _ _ _ => True) l .closed ∧ ¬Complete l) ∧
    (∃ l st, Reach jumpPump (fun _ _ _ => True) l st ∧ ¬Intact l) := by
  refine ⟨?_, ?_, ?_⟩
  · have h0 : Reach pumpRelay (fun _ _ _ => True) _ _ := .start [1, 2, 3]
    have h1 := h0.step (r := .flag false) rfl trivial
    have h2 := h1.step (r := .polled 0) rfl trivial
    have h3 := h2.step (r := .data [1, 2]) rfl trivial
    have h4 := h3.step (r := .took 1) rfl trivial
    have h5 := h4.step (r := .data [3]) rfl trivial
    have h6 := h5.step (r := .took 1) rfl trivial
    exact ⟨_, _, h6, fun h => absurd h.2 (by decide)⟩
  · have h0 : Reach pumpRelay (fun _ _ _ => True) _ _ := .start [1]
    have h1 := h0.step (r := .flag false) rfl trivial
    have h2 := h1.step (r := .polled 1) rfl trivial
    have h3 := h2.step (r := .zero) rfl trivial
    exact ⟨_, h3, fun h => absurd (h rfl rfl) (by decide)⟩
  · have h0 : Reach jumpPump (fun _ _ _ => True) _ _ := .start []
    have h1 := h0.step (r := .flag false) rfl trivial
    have h2 := h1.step (r := .data [1]) rfl trivial
    have h3 := h2.step (r := .error) rfl trivial
    have h4 := h3.step (r := .again) rfl trivial
    have h5 := h4.step (r := .flag false) rfl trivial
    have h6 := h5.step (r := .data [2]) rfl trivial
    have h7 := h6.step (r := .took 1) rfl trivial
    exact ⟨_, _, h7, fun h => absurd h.1 (by decide)⟩

end Tunnel
