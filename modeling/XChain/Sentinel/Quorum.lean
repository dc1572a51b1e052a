import XChain.Lib.Machine
import XChain.Sentinel.Commit

/-!
# Quorums against arbitrary peers

The tables of the sentinel are filled by own scans and by messages of any peer; nothing verifies a
signature before it is counted or submitted. Signature shares are unforgeable: what verifies for a
member and a message was signed by that member.

* **`quorum_of_genuine`**: if everything filed is genuine, a complete batch has a quorum and what is
  submitted carries a valid share.
-/

namespace XChain

open GoText StepMachine List Tables

structure Shares (Member : Type) where
  group : Finset Member
  Signed : Member → Hash → Prop
  Verifies : Member → Hash → Bytes → Prop
  unforgeable : ∀ {i m s}, Verifies i m s → Signed i m

/-- What reaches `ProcessVaultEventWithSig`: an event of an own scan, or a `VaultEventMsg`. -/
inductive Delivery
  | scan (e : VaultEvent)
  | message (vs : List VaultEventWithSig)

structure Intake where
  tables : Tables
  filed : List VaultEventWithSig

def Intake.empty : Intake := ⟨Tables.empty, []⟩

section Machine

variable (L : Imports)

/-- The signed events of a delivery; own events are signed with the own share. -/
def Imports.received : Delivery → List VaultEventWithSig
  | .scan e => [⟨e, L.signBytes (L.rlpHash e)⟩]
  | .message vs => vs

def Imports.intakeStep (s : Intake) (d : Delivery) : Option Intake :=
  some ⟨processAll L.rlpHash s.tables (L.received d), s.filed ++ L.received d⟩

variable {Member : Type} (S : Shares Member)

/-- A share of a member for its hash, in one byte form, and not the first signature again. -/
structure Genuine (earlier : List VaultEventWithSig) (v : VaultEventWithSig) : Prop where
  valid : ∃ i ∈ S.group, S.Verifies i (L.rlpHash v.event) v.blssig
  oneForm : ∀ i, ∀ s ∈ sigsFor L.rlpHash (L.rlpHash v.event) earlier,
    S.Verifies i (L.rlpHash v.event) s → S.Verifies i (L.rlpHash v.event) v.blssig → s = v.blssig
  notFirst : (sigsFor L.rlpHash (L.rlpHash v.event) earlier).head? ≠ some v.blssig

def AllGenuine (earlier vs : List VaultEventWithSig) : Prop :=
  ∀ pre v post, vs = pre ++ v :: post → Genuine L S (earlier ++ pre) v

/-- Complete batches have a quorum of signers, and what a commit submits carries a valid share for
exactly its event. -/
structure QuorumSound (s : Intake) : Prop where
  quorum : ∀ (d : Dkg) (b : VaultEventsBatch), (receivedAllSigs d s.tables b).2 = true →
    ∀ h ∈ b.batch, ∃ F ⊆ S.group, d.threshold ≤ F.card ∧ ∀ i ∈ F, S.Signed i h
  shares : ∀ (b : VaultEventsBatch) (e : EnterAnswers) (a : RecordAnswers) (r : CommitResult),
    L.commitVaultEvents s.tables b e a = some r → ∀ x ∈ r.exts,
      ∃ v, x = L.vaultEventExt v ∧ L.rlpHash v.event ∈ b.batch ∧
        ∃ i ∈ S.group, S.Verifies i (L.rlpHash v.event) x.sig

end Machine

/-! ## Genuine lists -/

section Genuine

variable {L : Imports} {Member : Type} {S : Shares Member} {earlier : List VaultEventWithSig}

namespace AllGenuine

theorem nil : AllGenuine L S earlier [] :=
  fun pre v post h => by simp at h

variable {v : VaultEventWithSig}

theorem singleton (h : Genuine L S earlier v) : AllGenuine L S earlier [v] := by
  intro pre u post e
  cases pre with
  | nil =>
    cases e
    simpa using h
  | cons w pre => simp at e

theorem append {earlier vs ws : List VaultEventWithSig} (hv : AllGenuine L S earlier vs)
    (hw : AllGenuine L S (earlier ++ vs) ws) : AllGenuine L S earlier (vs ++ ws) := by
  intro pre v post h
  rcases append_eq_append_iff.mp h with ⟨mid, rfl, hmid⟩ | ⟨mid, rfl, hmid⟩
  · rw [← append_assoc]
    exact hw mid v post hmid
  · cases mid with
    | nil =>
      have := hw [] v post (by simpa using hmid.symm)
      simpa using this
    | cons u mid =>
      obtain ⟨rfl, rfl⟩ := hmid
      exact hv pre v mid rfl

variable {vs : List VaultEventWithSig}

theorem mem (hv : AllGenuine L S [] vs)
    (h : v ∈ vs) :
    ∃ i ∈ S.group, S.Verifies i (L.rlpHash v.event) v.blssig := by
  obtain ⟨pre, post, rfl⟩ := append_of_mem h
  exact (hv pre v post rfl).valid

theorem of_concat
    (h : AllGenuine L S [] (vs ++ [v])) : AllGenuine L S [] vs ∧ Genuine L S vs v := by
  refine ⟨fun pre u post e => h pre u (post ++ [v]) (by rw [e]; simp), ?_⟩
  simpa using h vs v [] rfl

theorem sigsFor (hv : AllGenuine L S [] vs) (h : Hash) :
    (∀ s ∈ sigsFor L.rlpHash h vs, ∃ i ∈ S.group, S.Verifies i h s) ∧
      (∀ i, ∀ s ∈ sigsFor L.rlpHash h vs, ∀ t ∈ sigsFor L.rlpHash h vs,
        S.Verifies i h s → S.Verifies i h t → s = t) ∧
      ∀ s rest, sigsFor L.rlpHash h vs = s :: rest → s ∉ rest := by
  induction vs using List.reverseRecOn with
  | nil => simp [XChain.sigsFor]
  | append_singleton vs v ih =>
    obtain ⟨hvs, hg⟩ := hv.of_concat
    obtain ⟨hval, hform, hfirst⟩ := ih hvs
    rw [sigsFor_append]
    by_cases hh : L.rlpHash v.event = h
    · subst hh
      rw [if_pos rfl]
      refine ⟨fun s hs => ?_, fun i s hs t ht vs' vt => ?_, fun s rest e => ?_⟩
      · rcases mem_append.mp hs with hs | hs
        · exact hval s hs
        · rw [mem_singleton.mp hs]
          exact hg.valid
      · rcases mem_append.mp hs with hs | hs <;> rcases mem_append.mp ht with ht | ht
        · exact hform i s hs t ht vs' vt
        · rw [mem_singleton.mp ht] at vt ⊢
          exact hg.oneForm i s hs vs' vt
        · rw [mem_singleton.mp hs] at vs' ⊢
          exact (hg.oneForm i t ht vt vs').symm
        · rw [mem_singleton.mp hs, mem_singleton.mp ht]
      · have hnot := hg.notFirst
        cases hl : XChain.sigsFor L.rlpHash (L.rlpHash v.event) vs with
        | nil =>
          rw [hl] at e
          cases e
          exact not_mem_nil
        | cons u us =>
          rw [hl] at e hnot
          cases e
          have hu : s ≠ v.blssig := fun e => hnot (congrArg some e)
          simpa [hu] using hfirst s us hl
    · rw [if_neg hh, append_nil]
      exact ⟨hval, hform, hfirst⟩

end AllGenuine

end Genuine

/-! ## Soundness -/

section Sound

variable {L : Imports} {Member : Type} {S : Shares Member} {l : List Bytes}

theorem card_storedSigs_le (h : ∀ s rest, l = s :: rest → s ∉ rest) :
    (storedSigs l).elim 0 Finset.card ≤ l.toFinset.card := by
  cases l with
  | nil => exact le_rfl
  | cons s rest =>
    have hs : s ∉ rest.toFinset := by simpa using h s rest rfl
    rw [storedSigs, Option.elim_some, toFinset_cons, Finset.card_insert_of_notMem hs]
    exact Finset.card_insert_le _ _

theorem exists_signers {h : Hash} (hval : ∀ s ∈ l, ∃ i ∈ S.group, S.Verifies i h s)
    (hform : ∀ i, ∀ s ∈ l, ∀ t ∈ l, S.Verifies i h s → S.Verifies i h t → s = t) :
    ∃ F ⊆ S.group, l.toFinset.card ≤ F.card ∧ ∀ i ∈ F, S.Signed i h := by
  classical
  by_cases hl : l = []
  · subst hl
    exact ⟨∅, Finset.empty_subset _, le_rfl, fun i hi => absurd hi (Finset.notMem_empty i)⟩
  obtain ⟨s₀, hs₀⟩ := exists_mem_of_ne_nil l hl
  have : Nonempty Member := ⟨(hval s₀ hs₀).choose⟩
  choose! signer hgroup hver using hval
  refine ⟨l.toFinset.image signer, fun i hi => ?_, ?_, fun i hi => ?_⟩
  · obtain ⟨s, hs, rfl⟩ := Finset.mem_image.mp hi
    exact hgroup s (mem_toFinset.mp hs)
  · refine (Finset.card_image_of_injOn fun s hs t ht e => ?_).ge
    simp only [coe_toFinset, Set.mem_ofPred_eq] at hs ht
    exact hform (signer s) s hs t ht (hver s hs) (e ▸ hver t ht)
  · obtain ⟨s, hs, rfl⟩ := Finset.mem_image.mp hi
    exact S.unforgeable (hver s (mem_toFinset.mp hs))

theorem quorumSound_of_allGenuine {vs : List VaultEventWithSig} (hv : AllGenuine L S [] vs) :
    QuorumSound L S ⟨processAll L.rlpHash empty vs, vs⟩ := by
  refine ⟨fun d b hb h hh => ?_, fun b e a r hr x hx => ?_⟩
  · obtain ⟨hval, hform, hfirst⟩ := hv.sigsFor h
    obtain ⟨F, hF, hcard, hsigned⟩ := exists_signers hval hform
    have hcount : d.threshold ≤ sigCount (processAll L.rlpHash empty vs) h :=
      ready_le_sigCount ((receivedAllSigs_iff d _ b).mp hb h hh)
    have hstored := card_storedSigs_le hfirst
    rw [sigCount, processAll_sigs] at hcount
    exact ⟨F, hF, by omega, hsigned⟩
  · unfold Imports.commitVaultEvents at hr
    split_ifs at hr
    · obtain ⟨h, hh, v, hstored, rfl⟩ := Imports.commitEvents_exts hr x hx
      -- the stored event is the last one filed under the hash
      rw [processAll_events] at hstored
      have hmem := mem_of_getLast? hstored
      rw [mem_filter, decide_eq_true_eq] at hmem
      obtain ⟨hmem, rfl⟩ := hmem
      exact ⟨v, rfl, hh, hv.mem hmem⟩
    · cases hr
      cases hx

/-- **Quorum soundness**: a complete batch has a quorum of signers and valid shares. -/
theorem quorum_of_genuine {Member : Type} (L : Imports) (S : Shares Member)
    (ds : List Delivery) (s : Intake) (hrun : run L.intakeStep Intake.empty ds = some s)
    (hok : Along L.intakeStep (fun s d => AllGenuine L S s.filed (L.received d)) Intake.empty ds) :
    QuorumSound L S s := by
  have hinv : s.tables = processAll L.rlpHash empty s.filed ∧ AllGenuine L S [] s.filed := by
    refine run_invariant_along (I := fun s => s.tables = processAll L.rlpHash empty s.filed ∧
      AllGenuine L S [] s.filed) ?_ ⟨rfl, AllGenuine.nil⟩ hok hrun
    rintro s d t ⟨htab, hgen⟩ hd ht
    cases ht
    refine ⟨?_, hgen.append hd⟩
    rw [htab, processAll, processAll, processAll, foldl_append]
  have hs : s = ⟨processAll L.rlpHash empty s.filed, s.filed⟩ := by rw [← hinv.1]
  rw [hs]
  exact quorumSound_of_allGenuine hinv.2

end Sound

/-! ## One peer alone -/

def sampleShares : Shares (Fin 2) where
  group := .univ
  Signed _ h := h = sampleHash (sampleEvent 0)
  Verifies i h s := h = sampleHash (sampleEvent 0) ∧ s = [UInt8.ofNat (i + 1)]
  unforgeable h := h.1

/-- Two different shares of the group, delivered once each, satisfy the condition. -/
theorem quorum_of_two_shares : ∃ s, run sampleImports.intakeStep Intake.empty
      [.message [⟨sampleEvent 0, [1]⟩], .message [⟨sampleEvent 0, [2]⟩]] = some s ∧
    QuorumSound sampleImports sampleShares s := by
  refine ⟨_, rfl, quorum_of_genuine sampleImports sampleShares
    [.message [⟨sampleEvent 0, [1]⟩], .message [⟨sampleEvent 0, [2]⟩]] _ rfl ?_⟩
  refine ⟨.singleton ⟨⟨0, by decide, rfl, rfl⟩, ?_, by decide⟩, fun t ht => ?_⟩
  · exact nofun
  · cases ht
    refine ⟨.singleton ⟨⟨1, by decide, rfl, rfl⟩, ?_, by decide⟩, fun _ _ => trivial⟩
    rintro i s hs ⟨-, rfl⟩ ⟨-, h⟩
    exact h.symm

/-- Two byte strings that one peer invents for an event nobody signed complete its batch. -/
theorem quorum_forged : ¬ ∀ (L : Imports) (S : Shares (Fin 2)) (ds : List Delivery) (s : Intake),
    run L.intakeStep Intake.empty ds = some s → QuorumSound L S s := by
  intro h
  have hs := (h sampleImports sampleShares
    [.message [⟨sampleEvent 1, [7]⟩, ⟨sampleEvent 1, [8]⟩]] _ rfl).quorum ⟨true, some ⟨2, true⟩⟩
    ⟨[sampleHash (sampleEvent 1)], by decide, sampleAddress 7, 101, 120⟩ (by decide)
    (sampleHash (sampleEvent 1)) (by decide)
  obtain ⟨F, -, hcard, hsigned⟩ := hs
  rcases F.eq_empty_or_nonempty with rfl | ⟨i, hi⟩
  · exact absurd hcard (by decide)
  · exact absurd (hsigned i hi) (by change ¬ sampleHash (sampleEvent 1) = _; decide)

end XChain
