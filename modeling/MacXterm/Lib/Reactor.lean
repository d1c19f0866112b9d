import Mathlib.Data.List.Basic

inductive Turn (σ ε : Type) where
  | go : σ → List ε → Turn σ ε
  | rest : σ → List ε → Turn σ ε

def Turn.result {σ ε : Type} : Turn σ ε → σ × List ε
  | .go t out => (t, out)
  | .rest t out => (t, out)

namespace Reactor

variable {σ ε β : Type}

def run (turn : σ → Turn σ ε) : Nat → σ → Option (σ × List ε)
  | 0, _ => none
  | fuel + 1, s =>
      match turn s with
      | .rest t out => some (t, out)
      | .go t out => (run turn fuel t).map fun r => (r.1, out ++ r.2)

inductive Reach (turn : σ → Turn σ ε) : σ → σ → List ε → Prop
  | refl (s : σ) : Reach turn s s []
  | go {s t u : σ} {out more : List ε} : turn s = .go t out → Reach turn t u more →
      Reach turn s u (out ++ more)

def Settles (turn : σ → Turn σ ε) (s t : σ) (out : List ε) : Prop :=
  ∃ fuel, run turn fuel s = some (t, out)

section Run

variable {turn : σ → Turn σ ε} {s t u : σ} {out more : List ε}

theorem run_rest (h : turn s = .rest t out) (fuel : Nat) :
    run turn (fuel + 1) s = some (t, out) := by
  simp only [run, h]

theorem run_go (h : turn s = .go t out) (fuel : Nat) :
    run turn (fuel + 1) s = (run turn fuel t).map fun r => (r.1, out ++ r.2) := by
  simp only [run, h]

theorem run_mono {fuel k : Nat} (h : run turn fuel s = some (t, out)) :
    run turn (fuel + k) s = some (t, out) := by
  induction fuel generalizing s out with
  | zero => simp [run] at h
  | succ fuel ih =>
    rw [Nat.add_right_comm]
    cases hs : turn s with
    | rest s' o =>
      rw [run_rest hs] at h ⊢
      exact h
    | go s' o =>
      rw [run_go hs] at h ⊢
      obtain ⟨⟨u, more⟩, hr, he⟩ := Option.map_eq_some_iff.mp h
      obtain ⟨rfl, rfl⟩ : u = t ∧ o ++ more = out := by simpa using he
      rw [ih hr]
      rfl

theorem Settles.unique {t' : σ} {out' : List ε} (h : Settles turn s t out)
    (h' : Settles turn s t' out') : t = t' ∧ out = out' := by
  obtain ⟨m, hm⟩ := h
  obtain ⟨n, hn⟩ := h'
  have hm' := run_mono (k := n) hm
  have hn' := run_mono (k := m) hn
  rw [Nat.add_comm, hm'] at hn'
  simpa using hn'

theorem settles_rest (h : turn s = .rest t out) : Settles turn s t out := ⟨1, run_rest h 0⟩

theorem Settles.go {s' : σ} {o : List ε} (h : turn s = .go s' o)
    (hs : Settles turn s' t out) : Settles turn s t (o ++ out) := by
  obtain ⟨fuel, hf⟩ := hs
  refine ⟨fuel + 1, ?_⟩
  rw [run_go h, hf]
  rfl

theorem Reach.settles (h : Reach turn s t out) (hs : Settles turn t u more) :
    Settles turn s u (out ++ more) := by
  induction h with
  | refl s => exact hs
  | go hturn _ ih =>
    rw [List.append_assoc]
    exact (ih hs).go hturn

theorem Settles.cases (h : Settles turn s u more) :
    turn s = .rest u more ∨
      ∃ t o out, turn s = .go t o ∧ Settles turn t u out ∧ more = o ++ out := by
  obtain ⟨fuel, hf⟩ := h
  cases fuel with
  | zero => simp [run] at hf
  | succ fuel =>
    cases hs : turn s with
    | rest t o =>
      rw [run_rest hs] at hf
      obtain ⟨rfl, rfl⟩ : t = u ∧ o = more := by simpa using hf
      exact .inl rfl
    | go t o =>
      rw [run_go hs] at hf
      obtain ⟨⟨v, out⟩, hr, he⟩ := Option.map_eq_some_iff.mp hf
      obtain ⟨rfl, rfl⟩ : v = u ∧ o ++ out = more := by simpa using he
      exact .inr ⟨t, o, out, rfl, ⟨fuel, hr⟩, rfl⟩

theorem Settles.last (h : Settles turn s u more) :
    ∃ t out o, Reach turn s t out ∧ turn t = .rest u o ∧ more = out ++ o := by
  obtain ⟨fuel, hf⟩ := h
  induction fuel generalizing s more with
  | zero => simp [run] at hf
  | succ fuel ih =>
    rcases Settles.cases ⟨fuel + 1, hf⟩ with hs | ⟨t, o, out, hs, -, rfl⟩
    · exact ⟨s, [], more, .refl s, hs, rfl⟩
    · rw [run_go hs] at hf
      obtain ⟨⟨v, out'⟩, hr, he⟩ := Option.map_eq_some_iff.mp hf
      obtain ⟨rfl, hout⟩ : v = u ∧ o ++ out' = o ++ out := by simpa using he
      obtain rfl := List.append_cancel_left hout
      obtain ⟨t', out1, o1, hreach, hrest, rfl⟩ := ih hr
      refine ⟨t', o ++ out1, o1, .go hs hreach, hrest, ?_⟩
      rw [List.append_assoc]

-- Turns that go on either lower the measure or lead nowhere, so the measure bounds the fuel.
theorem Settles.run (measure : σ → Nat)
    (hgo : ∀ s t out, turn s = .go t out → measure t < measure s ∨ ∀ u more, ¬ Settles turn t u more)
    {fuel : Nat} (hfuel : measure s < fuel) (h : Settles turn s u more) :
    Reactor.run turn fuel s = some (u, more) := by
  induction fuel generalizing s more with
  | zero => omega
  | succ fuel ih =>
    rcases h.cases with hs | ⟨t, o, out, hs, ht, rfl⟩
    · exact run_rest hs fuel
    · rcases hgo s t o hs with hlt | hnever
      · rw [run_go hs, ih (by omega) ht]
        rfl
      · exact absurd ht (hnever u out)

theorem settles_measure (measure : σ → Nat) {ok : σ → Prop}
    (hgo : ∀ s t out, ok s → turn s = .go t out → measure t < measure s)
    (hok : ∀ t out, Reach turn s t out → ok t) : ∃ t out, Settles turn s t out := by
  induction hn : measure s using Nat.strongRecOn generalizing s with
  | ind n ih =>
    cases hs : turn s with
    | rest t out => exact ⟨t, out, settles_rest hs⟩
    | go t out =>
      have hlt := hgo s t out (hok s [] (.refl s)) hs
      obtain ⟨u, more, ht⟩ := ih (measure t) (hn ▸ hlt) (fun v o hv => hok v _ (.go hs hv)) rfl
      exact ⟨u, out ++ more, ht.go hs⟩

end Run

section Feed

variable (turn : σ → Turn σ ε) (feed : σ → List β → σ)

inductive Receives : σ → List (List β) → σ → List ε → Prop
  | nil (s : σ) : Receives s [] s []
  | cons {s t u : σ} {chunk : List β} {chunks : List (List β)} {out more : List ε} :
      Settles turn (feed s chunk) t out → Receives t chunks u more →
      Receives s (chunk :: chunks) u (out ++ more)

-- A turn that goes on does the same when more input has arrived behind what it read.
def Stable (ok : σ → Prop) : Prop :=
  ∀ s t out more, ok s → turn s = .go t out → turn (feed s more) = .go (feed t more) out

-- Where a turn rests, more input is met as it would have been without the rest.
def Resumes {γ : Type} (view : List ε → List γ) (allowed : σ → List β → Prop) : Prop :=
  ∀ s t out more u out', turn s = .rest t out → allowed t more →
    Settles turn (feed t more) u out' →
      ∃ all, Settles turn (feed s more) u all ∧ view all = view (out ++ out')

variable {turn feed}

theorem reach_rest {ok : σ → Prop} {s t : σ} {out : List ε} (h : turn s = .rest t out)
    (hs : ok s) : ∀ u o, Reach turn s u o → ok u := by
  intro u o hu
  cases hu with
  | refl => exact hs
  | go hgo _ => simp [h] at hgo

theorem reach_go {ok : σ → Prop} {s t : σ} {out : List ε} (h : turn s = .go t out) (hs : ok s)
    (ht : ∀ u o, Reach turn t u o → ok u) : ∀ u o, Reach turn s u o → ok u := by
  intro u o hu
  cases hu with
  | refl => exact hs
  | go hgo hnext =>
    obtain ⟨rfl, rfl⟩ := Turn.go.inj (h.symm.trans hgo)
    exact ht _ _ hnext

theorem Reach.fed {ok : σ → Prop} (hstable : Stable turn feed ok) {s t : σ} {out : List ε}
    (h : Reach turn s t out) (hok : ∀ u o, Reach turn s u o → ok u) (more : List β) :
    Reach turn (feed s more) (feed t more) out := by
  induction h with
  | refl s => exact .refl _
  | @go s t u out o hturn _ ih =>
    have hs : ok s := hok s [] (.refl s)
    refine .go (hstable s t out more hs hturn) (ih ?_)
    intro v o' hv
    exact hok v (out ++ o') (.go hturn hv)

section Independence

variable {γ : Type} {ok : σ → Prop} {allowed : σ → List β → Prop} {view : List ε → List γ}

theorem settles_feed (hview : ∀ a b, view (a ++ b) = view a ++ view b)
    (hstable : Stable turn feed ok) (hresumes : Resumes turn feed view allowed)
    {s t u : σ} {out out' : List ε} {more : List β} (hs : Settles turn s t out)
    (hok : ∀ v o, Reach turn s v o → ok v) (hallowed : allowed t more)
    (ht : Settles turn (feed t more) u out') :
    ∃ all, Settles turn (feed s more) u all ∧ view all = view (out ++ out') := by
  obtain ⟨v, o1, o2, hreach, hrest, rfl⟩ := hs.last
  obtain ⟨all, hsettle, hall⟩ := hresumes v t o2 more u out' hrest hallowed ht
  refine ⟨o1 ++ all, (hreach.fed hstable hok more).settles hsettle, ?_⟩
  rw [hview, hall, List.append_assoc, hview o1]

variable (turn feed ok allowed) in
inductive CleanRun : σ → List (List β) → Prop
  | nil (s : σ) : CleanRun s []
  | cons {s : σ} {chunk : List β} {chunks : List (List β)} : allowed s chunk →
      (∀ v o, Reach turn (feed s chunk) v o → ok v) →
      (∀ t o, Settles turn (feed s chunk) t o → CleanRun t chunks) →
      CleanRun s (chunk :: chunks)

theorem receives_allowed
    (happend : ∀ s t out a b, allowed s a → Settles turn (feed s a) t out → allowed t b →
      allowed s (a ++ b))
    {s u : σ} {chunk : List β} {chunks : List (List β)} {out : List ε}
    (h : Receives turn feed s (chunk :: chunks) u out)
    (hc : CleanRun turn feed ok allowed s (chunk :: chunks)) :
    allowed s (chunk ++ chunks.flatten) := by
  induction chunks generalizing s chunk out with
  | nil =>
    cases hc with
    | cons hallowed _ _ => simpa using hallowed
  | cons next chunks ih =>
    cases hc with
    | cons hallowed _ hnext =>
      cases h with
      | cons hsettle hrest =>
        exact happend _ _ _ _ _ hallowed hsettle (ih hrest (hnext _ _ hsettle))

theorem receives_flatten (hview : ∀ a b, view (a ++ b) = view a ++ view b)
    (hfeed : ∀ s a b, feed (feed s a) b = feed s (a ++ b))
    (hstable : Stable turn feed ok) (hresumes : Resumes turn feed view allowed)
    (happend : ∀ s t out a b, allowed s a → Settles turn (feed s a) t out → allowed t b →
      allowed s (a ++ b))
    {s u : σ} {chunk : List β} {chunks : List (List β)} {out : List ε}
    (h : Receives turn feed s (chunk :: chunks) u out)
    (hc : CleanRun turn feed ok allowed s (chunk :: chunks)) :
    ∃ all, Settles turn (feed s (chunk ++ chunks.flatten)) u all ∧ view all = view out := by
  induction chunks generalizing s chunk out with
  | nil =>
    cases h with
    | cons hsettle hrest =>
      cases hrest
      rw [List.flatten_nil, List.append_nil, List.append_nil]
      exact ⟨_, hsettle, rfl⟩
  | cons next chunks ih =>
    cases hc with
    | cons _ hok hnext =>
      cases h with
      | @cons _ t _ _ _ o more hsettle hrest =>
        have hclean := hnext _ _ hsettle
        obtain ⟨later, hlater, hsame⟩ := ih hrest hclean
        have hallowed := receives_allowed happend hrest hclean
        obtain ⟨all, hall, heq⟩ :=
          settles_feed hview hstable hresumes hsettle hok hallowed hlater
        rw [hfeed] at hall
        refine ⟨all, hall, ?_⟩
        rw [heq, hview, hview, hsame]

end Independence

end Feed

end Reactor
