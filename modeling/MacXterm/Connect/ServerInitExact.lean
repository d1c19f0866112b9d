import MacXterm.Connect.Chunking

namespace Connect.VncConnection

open Qt Rfb Reactor

variable {z : Zlib}

def declared (b : QByteArray) : Nat := 24 + (rd32be b 20).toNat

def Whole (b : QByteArray) : Prop := 24 ≤ b.length ∧ declared b ≤ b.length

def initOf (b : QByteArray) : ServerInit :=
  ⟨rd16be b 0, rd16be b 2, byteAt b 4, byteAt b 5,
    fromUtf8 ((b.drop 24).take (rd32be b 20).toNat), true⟩

def ready (c : VncConnection z) (size : Nat) (s : ServerInit) : VncConnection z :=
  { c with phase := .running, buf := c.buf.drop size, serverInit := s, state := .connected }

def reports (c : VncConnection z) (s : ServerInit) : List Event :=
  (c.setState .connected).2 ++ [.serverReady s.width s.height s.name,
    .write (encodeSetEncodings [EncZRLE, EncHextile, EncRRE, EncCopyRect, EncRaw]),
    .write (requestFramebuffer s)]

-- From the turn on which the phase is entered, one turn more for each chunk that arrives.
inductive InitRun : VncConnection z → List QByteArray → Prop
  | waits {c : VncConnection z} : ¬ Whole c.buf → c.turn = .rest c [] → InitRun c []
  | later {c : VncConnection z} {data : QByteArray} {chunks : List QByteArray} :
      ¬ Whole c.buf → c.turn = .rest c [] → InitRun (c.receive data) chunks →
      InitRun c (data :: chunks)
  | leaves {c : VncConnection z} (chunks : List QByteArray) :
      Whole c.buf →
      c.turn = .go (c.ready (declared c.buf) (initOf c.buf)) (c.reports (initOf c.buf)) →
      InitRun c chunks

def InitFits (b : QByteArray) : Prop :=
  24 ≤ b.length → declared b < 2 ^ 31 ∨ declared b < 2 ^ 32 ∧ declared b ≤ b.length

section Declared

variable {b : QByteArray}

theorem declared_lt (b : QByteArray) : declared b < 2 ^ 32 + 24 := by
  have hlt := (rd32be b 20).toNat_lt
  unfold declared
  omega

theorem size_of_declared (b : QByteArray) : (24 + rd32be b 20).toNat = declared b % 2 ^ 32 :=
  UInt32.toNat_add 24 (rd32be b 20)

theorem declared_append (h : 24 ≤ b.length) (more : QByteArray) :
    declared (b ++ more) = declared b := by
  rw [declared, declared, rd32be_append_left (by omega)]

theorem Whole.append (h : Whole b) (more : QByteArray) : Whole (b ++ more) := by
  obtain ⟨hlong, hsize⟩ := h
  refine ⟨?_, ?_⟩
  · rw [List.length_append]
    omega
  · rw [declared_append hlong, List.length_append]
    omega

theorem InitFits.append (h : InitFits b) (hb : Whole b) (more : QByteArray) :
    InitFits (b ++ more) := by
  intro _
  rw [declared_append hb.1, List.length_append]
  rcases h hb.1 with hsmall | ⟨hfit, hsize⟩
  · exact .inl hsmall
  · exact .inr ⟨hfit, by omega⟩

theorem parseServerInit_take (hb : Whole b) (hfits : declared b < 2 ^ 32) :
    parseServerInit (b.take (declared b)) = initOf b := by
  obtain ⟨hlong, hsize⟩ := hb
  have h24 : 24 ≤ declared b := Nat.le_add_right 24 _
  have hlength : (b.take (declared b)).length = declared b := by
    rw [List.length_take, Nat.min_eq_left hsize]
  have hsplit := List.take_append_drop (declared b) b
  have h16 {i : Int} (hi : i + 2 ≤ 24) : rd16be (b.take (declared b)) i = rd16be b i := by
    rw [← rd16be_append_left (by omega) (b.drop (declared b)), hsplit]
  have h8 {i : Int} (hi : i < 24) : byteAt (b.take (declared b)) i = byteAt b i := by
    rw [← byteAt_append_left (by omega) (b.drop (declared b)), hsplit]
  have hname : rd32be (b.take (declared b)) 20 = rd32be b 20 := by
    rw [← rd32be_append_left (by omega) (b.drop (declared b)), hsplit]
  have hmid : mid (b.take (declared b)) 24 (rd32be b 20).toNat =
      (b.drop 24).take (rd32be b 20).toNat := by
    have hcut := mid_nat (b.take (declared b)) (n := (rd32be b 20).toNat)
      (show 24 ≤ (b.take (declared b)).length by omega)
    rw [List.drop_take, declared, Nat.add_sub_cancel_left, List.take_take, Nat.min_self] at hcut
    exact hcut
  have hpass : ¬ (b.take (declared b)).length < int32 (24 + (rd32be b 20).toNat) := by
    rw [hlength]
    have hcast : (24 : Int) + (rd32be b 20).toNat = declared b := by
      rw [declared, Int.natCast_add]
      rfl
    rw [hcast]
    rcases int32_cases (x := declared b) (by omega) (by exact_mod_cast hfits) with h | h
    · omega
    · omega
  simp only [parseServerInit, if_neg (show ¬ (b.take (declared b)).length < 24 by omega), hname,
    if_neg hpass, h16 (show (0 : Int) + 2 ≤ 24 by decide),
    h16 (show (2 : Int) + 2 ≤ 24 by decide), h8 (show (4 : Int) < 24 by decide),
    h8 (show (5 : Int) < 24 by decide), hmid]
  rfl

end Declared

section Turns

variable {c : VncConnection z}

theorem readServerInit_waits (h : 24 ≤ c.buf.length → declared c.buf < 2 ^ 31)
    (hb : ¬ Whole c.buf) : c.readServerInit = .rest c [] := by
  unfold readServerInit
  split
  · rfl
  · rename_i hlong
    have hfits := h (by omega)
    have hmod : declared c.buf % 2 ^ 32 = declared c.buf := Nat.mod_eq_of_lt (by omega)
    have hshort : c.buf.length < declared c.buf :=
      Nat.lt_of_not_le fun hsize => hb ⟨by omega, hsize⟩
    have hstop : (c.buf.length : Int) < int32 (declared c.buf % 2 ^ 32 : Nat) := by
      rw [hmod, int32_eq (by omega) (by omega)]
      omega
    simp only [size_of_declared]
    rw [if_pos hstop]

theorem readServerInit_passes {size : Nat} (hsize : (24 + rd32be c.buf 20).toNat = size)
    (hlong : 24 ≤ c.buf.length) (hpass : int32 size ≤ c.buf.length) :
    c.readServerInit =
      .go (c.ready size (parseServerInit (c.buf.take size)))
        (c.reports (parseServerInit (c.buf.take size))) := by
  have hremove : removeFront c.buf size = c.buf.drop size := by
    unfold removeFront
    split
    · have hzero : size = 0 := by omega
      rw [hzero, List.drop_zero]
    · rfl
  rw [readServerInit, if_neg (by omega)]
  simp only [hsize, setState, ready, reports, hremove]
  rw [if_neg (by omega)]
  split
  · rfl
  · rename_i hstate
    rw [Decidable.not_not.mp hstate]

theorem readServerInit_exact (hb : Whole c.buf) (hfits : declared c.buf < 2 ^ 32) :
    c.readServerInit =
      .go (c.ready (declared c.buf) (initOf c.buf)) (c.reports (initOf c.buf)) := by
  have hmod : declared c.buf % 2 ^ 32 = declared c.buf := Nat.mod_eq_of_lt hfits
  have hpass : int32 (declared c.buf % 2 ^ 32 : Nat) ≤ c.buf.length := by
    have hsize := hb.2
    rw [hmod]
    rcases int32_cases (x := declared c.buf) (by omega) (by exact_mod_cast hfits) with h | h
    · omega
    · omega
  rw [readServerInit_passes (size_of_declared c.buf) hb.1 hpass, hmod,
    parseServerInit_take hb hfits]

-- From 2^31 on int() of the sum is negative, and from 2^32 on the sum itself is below 24.
theorem passes_of_large (hlong : 24 ≤ c.buf.length) (hlarge : 2 ^ 31 ≤ declared c.buf) :
    int32 (declared c.buf % 2 ^ 32 : Nat) ≤ c.buf.length := by
  have hlt := declared_lt c.buf
  by_cases hfits : declared c.buf < 2 ^ 32
  · rw [Nat.mod_eq_of_lt hfits]
    rcases int32_cases (x := declared c.buf) (by omega) (by exact_mod_cast hfits) with h | h
    · omega
    · omega
  · have hsmall : declared c.buf % 2 ^ 32 < 24 := by omega
    rw [int32_eq (by omega) (by omega)]
    omega

theorem fits_of_waits (h : c.readServerInit = .rest c []) : InitFits c.buf := by
  intro hlong
  by_cases hsmall : declared c.buf < 2 ^ 31
  · exact .inl hsmall
  · rw [readServerInit_passes (size_of_declared c.buf) hlong
      (passes_of_large hlong (by omega))] at h
    cases h

theorem fits_of_leaves (hb : Whole c.buf)
    (h : c.readServerInit =
      .go (c.ready (declared c.buf) (initOf c.buf)) (c.reports (initOf c.buf))) :
    InitFits c.buf := by
  intro hlong
  by_cases hsmall : declared c.buf < 2 ^ 31
  · exact .inl hsmall
  · refine .inr ⟨?_, hb.2⟩
    rw [readServerInit_passes (size_of_declared c.buf) hlong
      (passes_of_large hlong (by omega))] at h
    obtain ⟨hready, -⟩ := Turn.go.inj h
    have hlength := congrArg (fun t => t.buf.length) hready
    simp only [ready, List.length_drop] at hlength
    have hsize := hb.2
    have hlt := declared_lt c.buf
    omega

theorem turn_exact (hphase : c.phase = .serverInit) (hfits : InitFits c.buf) :
    ¬ Whole c.buf ∧ c.turn = .rest c [] ∨
      Whole c.buf ∧
        c.turn = .go (c.ready (declared c.buf) (initOf c.buf)) (c.reports (initOf c.buf)) := by
  rw [turn_serverInit hphase]
  by_cases hb : Whole c.buf
  · have hlt : declared c.buf < 2 ^ 32 := by
      rcases hfits hb.1 with hsmall | hlarge
      · omega
      · exact hlarge.1
    exact .inr ⟨hb, readServerInit_exact hb hlt⟩
  · refine .inl ⟨hb, readServerInit_waits (fun hlong => ?_) hb⟩
    rcases hfits hlong with hsmall | hlarge
    · exact hsmall
    · exact absurd ⟨hlong, hlarge.2⟩ hb

end Turns

theorem server_init_exact_iff (c : VncConnection z) (hphase : c.phase = .serverInit)
    (chunks : List QByteArray) :
    InitRun c chunks ↔ ∀ past, past <+: chunks → InitFits (c.buf ++ past.flatten) := by
  constructor
  · intro h
    induction h with
    | waits _ hturn =>
      intro past hpast
      obtain rfl := List.prefix_nil.mp hpast
      rw [turn_serverInit hphase] at hturn
      simpa using fits_of_waits hturn
    | later _ hturn _ ih =>
      intro past hpast
      cases past with
      | nil =>
        rw [turn_serverInit hphase] at hturn
        simpa using fits_of_waits hturn
      | cons first past =>
        obtain ⟨rfl, hrest⟩ := List.cons_prefix_cons.mp hpast
        have hlater := ih hphase past hrest
        rwa [receive, List.append_assoc, ← List.flatten_cons] at hlater
    | leaves _ hb hturn =>
      intro past _
      rw [turn_serverInit hphase] at hturn
      exact (fits_of_leaves hb hturn).append hb past.flatten
  · intro h
    induction chunks generalizing c with
    | nil =>
      have hfits : InitFits c.buf := by simpa using h [] (List.nil_prefix)
      rcases turn_exact hphase hfits with ⟨hb, hturn⟩ | ⟨hb, hturn⟩
      · exact .waits hb hturn
      · exact .leaves [] hb hturn
    | cons data chunks ih =>
      have hfits : InitFits c.buf := by simpa using h [] (List.nil_prefix)
      rcases turn_exact hphase hfits with ⟨hb, hturn⟩ | ⟨hb, hturn⟩
      · refine .later hb hturn (ih (c.receive data) hphase ?_)
        intro past hpast
        have hlater := h (data :: past) (List.cons_prefix_cons.mpr ⟨rfl, hpast⟩)
        rwa [List.flatten_cons, ← List.append_assoc] at hlater
      · exact .leaves (data :: chunks) hb hturn

def cutGreeting : List QByteArray := [greeting.take 10, greeting.drop 10]

theorem server_init_exact_cut :
    (before .serverInit []).phase = .serverInit ∧
      InitRun (before .serverInit []) cutGreeting := by
  refine ⟨rfl, (server_init_exact_iff _ rfl cutGreeting).mpr ?_⟩
  intro past hpast _
  refine .inl ?_
  rcases List.prefix_cons_iff.mp hpast with rfl | ⟨t, rfl, ht⟩
  · decide
  · rcases List.prefix_cons_iff.mp ht with rfl | ⟨rest, rfl, hrest⟩
    · decide
    · obtain rfl := List.prefix_nil.mp hrest
      decide

def longName : QByteArray := List.replicate 20 0 ++ [0x7F, 0xFF, 0xFF, 0xE8]

theorem long_name_left_early : ¬ InitRun (before .serverInit longName) [] := by
  have hdeclared : declared longName = 2 ^ 31 := by decide
  intro h
  cases h with
  | waits _ hturn =>
    rw [turn_serverInit rfl] at hturn
    rcases fits_of_waits hturn (by decide) with hsmall | ⟨-, hsize⟩
    · exact absurd hsmall (by decide)
    · exact absurd hsize (by decide)
  | leaves _ hb _ => exact absurd hb.2 (by decide)

end Connect.VncConnection
