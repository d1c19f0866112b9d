import Mathlib.Data.List.Forall2
import MacXterm.Ui.MainWindow

namespace Ui

open Qt Core MainWindow

inductive Operation where
  | add (dlg : SessionDialog)
  | rename (name neu : QString)
  | duplicate (name : QString)
  | edit (name : QString) (dlg : SessionDialog)
  | delete (name : QString)
  | setIcon (name glyph : QString)
  | moveTo (name folder : QString)
  | renameFolder (folder neu : QString)

def MainWindow.perform (w : MainWindow) : Operation → MainWindow
  | .add dlg => w.newSession dlg
  | .rename name neu => w.renameSession name neu
  | .duplicate name => w.duplicateSession name
  | .edit name dlg => w.editSession name dlg
  | .delete name => w.deleteSession name
  | .setIcon name glyph => w.setIcon name glyph
  | .moveTo name folder => w.moveTo name folder
  | .renameFolder folder neu => w.renameFolder folder neu

structure Tracked where
  id : Nat
  entered : QString

-- The window together with what the user did: which session of the list is which, and the
-- password last typed for it.
structure History where
  window : MainWindow
  tracked : List Tracked
  next : Nat

namespace History

def list (h : History) : List Session := h.window.sessions.sessions

def position (h : History) (name : QString) : Option Nat := find h.list name

def entry (h : History) (i : Nat) : Tracked := h.tracked.getD i ⟨0, []⟩

def target (h : History) : Operation → Option Nat
  | .rename name _ | .edit name _ | .delete name | .setIcon name _ | .moveTo name _ =>
      (h.position name).map fun i => (h.entry i).id
  | .add _ | .duplicate _ | .renameFolder _ _ => none

def track (inherits : Bool) (h : History) : Operation → List Tracked
  | .add dlg => if dlg.onAccept then h.tracked ++ [⟨h.next, dlg.password⟩] else h.tracked
  | .duplicate name =>
      match h.position name with
      | none => h.tracked
      | some i => h.tracked ++ [⟨h.next, if inherits then (h.entry i).entered else []⟩]
  | .edit name dlg =>
      match h.position name with
      | none => h.tracked
      | some i =>
          if dlg.onAccept then
            h.tracked.eraseIdx i ++
              [⟨(h.entry i).id, if dlg.password = [] then (h.entry i).entered else dlg.password⟩]
          else h.tracked
  | .delete name =>
      match h.position name with
      | none => h.tracked
      | some i => h.tracked.eraseIdx i
  | _ => h.tracked

def step (inherits : Bool) (h : History) (op : Operation) : History :=
  ⟨h.window.perform op, h.track inherits op, h.next + 1⟩

def password (h : History) (s : Session) : QString := (h.window.resolveSecrets s).param "password"

def passwordOf (h : History) (id : Nat) : Option QString :=
  ((h.list.zip h.tracked).find? fun p => p.2.id = id).map fun p => h.password p.1

def Resolves (h : History) : Prop :=
  List.Forall₂ (fun s e => h.password s = e.entered) h.list h.tracked

def Undisturbed (inherits : Bool) (h : History) (op : Operation) : Prop :=
  ∀ id < h.next, h.target op ≠ some id → (h.step inherits op).passwordOf id = h.passwordOf id

-- No listed session refers to the entry that a session of this name would take, or the entry
-- already holds this password.
def Free (h : History) (list : List Session) (name password : QString) : Prop :=
  ∀ s ∈ list, s.param "vault_ref" = vaultRef name →
    h.window.vault.secret (vaultRef name) = password

def Clean (inherits : Bool) (h : History) : Operation → Prop
  | .add dlg => dlg.onAccept = true → dlg.password ≠ [] → h.Free h.list dlg.name dlg.password
  | .duplicate name =>
      inherits = true ∨ ∀ s, h.window.sessions.findSession name = some s → s.param "vault_ref" = []
  | .edit name dlg =>
      ∀ i s, h.position name = some i → h.list[i]? = some s → dlg.onAccept = true →
        if dlg.password = [] then s.param "vault_ref" = []
        else h.Free (h.list.eraseIdx i) dlg.name dlg.password
  | _ => True

inductive Run (inherits : Bool) (allowed : History → Operation → Prop) : History → Prop
  | start (w : MainWindow) (hunlocked : w.vaultUnlocked = true) (hfolders : w.sessions.folders = [])
      (hsessions : w.sessions.sessions = []) : Run inherits allowed ⟨w, [], 0⟩
  | step {h : History} {op : Operation} : Run inherits allowed h → allowed h op →
      Run inherits allowed (h.step inherits op)

end History

structure Agrees (vault : CredentialVault) (s : Session) (e : Tracked) : Prop where
  named : s.name ≠ []
  plain : s.params.find "password" = none
  entered : s.params.find "vault_ref" = none ∧ e.entered = [] ∨
    ∃ ref, s.params.find "vault_ref" = some ref ∧ ref ≠ [] ∧
      vault.secrets.find ref = some e.entered

theorem Agrees.password {w : MainWindow} {s : Session} {e : Tracked} (h : Agrees w.vault s e)
    (hw : w.vaultUnlocked = true) : (w.resolveSecrets s).param "password" = e.entered := by
  rcases h.entered with ⟨hnone, he⟩ | ⟨ref, href, hne, hfind⟩
  · have hparam : s.param "vault_ref" = [] := by rw [Session.param_eq, hnone]; rfl
    have hkeep : w.resolveSecrets s = s := by
      simp only [resolveSecrets, hparam, ne_eq, not_true_eq_false, false_and, if_false]
    rw [hkeep, Session.param_eq, h.plain, he]
    rfl
  · have hparam : s.param "vault_ref" = ref := by rw [Session.param_eq, href]; rfl
    have hhas : w.vault.hasSecret ref = true := by
      simp only [CredentialVault.hasSecret, QMap.contains, hfind, Option.isSome_some]
    have hset : w.resolveSecrets s = s.setParam "password" (w.vault.secret ref) := by
      simp only [resolveSecrets, hparam, hw, hhas, and_true]
      exact if_pos hne
    rw [hset, Session.param_eq, Session.find_setParam, if_pos rfl]
    simp [CredentialVault.secret, QMap.value, hfind]

theorem Agrees.noRef {vault : CredentialVault} {s : Session} {e : Tracked} (h : Agrees vault s e)
    (hblank : s.param "vault_ref" = []) : s.params.find "vault_ref" = none ∧ e.entered = [] := by
  rcases h.entered with hnone | ⟨ref, href, hne, -⟩
  · exact hnone
  · rw [Session.param_eq, href] at hblank
    exact absurd hblank hne

theorem Agrees.of_params {vault : CredentialVault} {s t : Session} {e : Tracked}
    (h : Agrees vault s e) (hname : t.name ≠ [])
    (hpassword : t.params.find "password" = s.params.find "password")
    (href : t.params.find "vault_ref" = s.params.find "vault_ref") : Agrees vault t e := by
  constructor
  · exact hname
  · rw [hpassword]
    exact h.plain
  · rw [href]
    exact h.entered

section Aligned

variable {vault : CredentialVault} {ss : List Session} {es : List Tracked}

theorem forall₂_eraseIdx (h : List.Forall₂ (Agrees vault) ss es) (i : Nat) :
    List.Forall₂ (Agrees vault) (ss.eraseIdx i) (es.eraseIdx i) := by
  rw [List.eraseIdx_eq_take_drop_succ, List.eraseIdx_eq_take_drop_succ]
  exact List.rel_append (List.forall₂_take i h) (List.forall₂_drop (i + 1) h)

theorem forall₂_modify {f : Session → Session} (hf : ∀ s e, Agrees vault s e → Agrees vault (f s) e)
    (h : List.Forall₂ (Agrees vault) ss es) (i : Nat) :
    List.Forall₂ (Agrees vault) (ss.modify i f) es := by
  induction h generalizing i with
  | nil => simp
  | cons hse _ ih =>
    cases i with
    | zero => exact .cons (hf _ _ hse) ‹_›
    | succ i => exact .cons hse (ih i)

theorem forall₂_entry (h : List.Forall₂ (Agrees vault) ss es) {i : Nat} {s : Session}
    (hs : ss[i]? = some s) : ∃ e, es[i]? = some e ∧ Agrees vault s e := by
  induction h generalizing i with
  | nil => simp at hs
  | cons hse _ ih =>
    cases i with
    | zero =>
      obtain rfl : _ = s := by simpa using hs
      exact ⟨_, rfl, hse⟩
    | succ i => simpa using ih (by simpa using hs)

end Aligned

end Ui
