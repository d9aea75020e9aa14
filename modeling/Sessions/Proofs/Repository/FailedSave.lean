import Sessions.Proofs.Basic
import Sessions.Proofs.Codec.Lawful
import Sessions.Proofs.Repository.Steps

/-!
# Saves that fail

What a failed save leaves behind: in the store, everything but the entry of a rotated record's
previous id, which goes before anything is written; in the record, its notes, unless a payload was
produced already.
-/

namespace Sessions

open Store (Settled)

namespace Repository

variable {r r' : Repository} {s s' : Session} {now : Time} {e : Fault}

lemma session_of_failed_save (hlaw : r.codec.Lawful) (h : r.save s now = (r', s', .error e)) :
    (r.NoPayload s → s' = s ∧ (s.phase.isEnded = false →
      s.hasDelta = true ∨ s.needsFullWrite = true)) ∧ (¬r.NoPayload s → s' = s.commit) := by
  have hcases := save_cases r s now
  rw [h] at hcases
  cases hcases with
  | ended hend =>
    exact ⟨fun _ => ⟨rfl, by simp [hend]⟩, fun hpayload => absurd (.inl hend) hpayload⟩
  | written hopen _ hdue hwrite =>
    have hcodec := (setUpAs_vacate r s).codec
    rw [← hcodec] at hlaw
    -- after a payload was produced there is no way back
    have hencoded : ∀ {u payload}, (r.vacate s).codec.encode s = (u, .ok payload) →
        u = s.commit ∧ ¬r.NoPayload s := by
      intro u payload henc
      refine ⟨hlaw.encode_ok henc, ?_⟩
      rintro (hend | ⟨e, he⟩)
      · rw [hend] at hopen
        cases hopen
      · rw [← hcodec, henc] at he
        cases he
    cases hwrite with
    | unencoded henc =>
      refine ⟨fun _ => ⟨hlaw.encode_error henc, fun _ => hdue⟩, fun hpayload => ?_⟩
      rw [hcodec] at henc
      exact absurd (.inr ⟨e, by rw [henc]⟩) hpayload
    | refused henc _ =>
      obtain ⟨hcommit, hpayload⟩ := hencoded henc
      exact ⟨fun hnone => absurd hnone hpayload, fun _ => hcommit⟩
    | unsent henc hfull _ =>
      obtain ⟨hcommit, hpayload⟩ := hencoded henc
      exact ⟨fun hnone => absurd hnone hpayload,
        fun _ => (hlaw.encodeFull_error hfull).trans hcommit⟩
    | unresent henc hfull _ =>
      obtain ⟨hcommit, hpayload⟩ := hencoded henc
      refine ⟨fun hnone => absurd hnone hpayload, fun _ => ?_⟩
      rw [hlaw.encodeFull_ok hfull, hcommit, Session.commit_commit]

lemma Writes.settled (h : Writes r s now (r', s', .error e)) : Settled now r.store r'.store := by
  cases h with
  | unencoded _ => exact Settled.refl now r.store
  | refused _ hst => exact hst
  | unsent _ _ hst => exact hst
  | unresent _ _ hst => exact hst

/-- **A failed save loses no entry but that of the previous id**, which is gone if the record was
not ended: at the time of the save and at any later one, every other id answers as it would have
answered without the save. -/
theorem get_of_failed_save (h : r.save s now = (r', s', .error e)) (id : Ident) {later : Time}
    (hle : now ≤ later) :
    (r'.store.get id later).2 =
      if s.phase.isEnded = false ∧ s.previous = some id then none
      else (r.store.get id later).2 := by
  have hcases := save_cases r s now
  rw [h] at hcases
  rw [Store.get_snd, Store.get_snd]
  cases hcases with
  | ended hend => simp [hend]
  | written hopen _ _ hwrite =>
    rw [hwrite.settled.kept id later hle, standing_vacate]
    by_cases hp : s.previous = some id <;> simp [hopen, hp]

end Repository

namespace Sample

/-- A rotated record with a value that is too deep to be read back. -/
def deepened : Session := withValue rotated (nested 128)

def failed : Repository × Session × Except Fault Unit :=
  (stored (some reader)).save deepened start

lemma failed_outcome : failed.2.2 = .error (.json .malformed) := by decide +kernel

lemma save_deepened : (stored (some reader)).save deepened start =
    (failed.1, failed.2.1, .error (.json .malformed)) := by
  rw [← failed_outcome, ← failed]

end Sample

namespace Repository

open Sample

theorem get_of_failed_save_rotated :
    failed.2.2 = .error (.json .malformed) ∧ start ≤ start ∧
      (failed.1.store.get ⟨"x"⟩ start).2 = none := by
  have hdue : deepened.phase.isEnded = false ∧ deepened.previous = some ⟨"x"⟩ := by
    decide +kernel
  refine ⟨failed_outcome, Time.le_refl start, ?_⟩
  rw [get_of_failed_save save_deepened ⟨"x"⟩ (Time.le_refl start), if_pos hdue]

/-- An entry can be lost although it could be answered. -/
theorem failed_save_can_lose_entry :
    ¬∀ (r r' : Repository) (s s' : Session) (now : Time) (e : Fault),
      r.save s now = (r', s', .error e) → ∀ id payload, (r.store.get id now).2 = some payload →
        (r'.store.get id now).2 = some payload := by
  intro h
  have hbefore : ((stored (some reader)).store.get ⟨"x"⟩ start).2.isSome = true := by
    decide +kernel
  have hafter : (failed.1.store.get ⟨"x"⟩ start).2 = none := by decide +kernel
  obtain ⟨payload, hpayload⟩ := Option.isSome_iff_exists.1 hbefore
  have hkept := h _ _ _ _ _ _ save_deepened ⟨"x"⟩ payload hpayload
  rw [hafter] at hkept
  cases hkept

end Repository

end Sessions
