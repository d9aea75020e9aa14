import Mathlib.Tactic.Choose
import Sessions.Proofs.Repository.Storing

/-!
# Looking sessions up by key

The store lists the ids of the entries that stand under a key, and the repository loads them one
after the other, by which idle ones are removed as it goes. That changes nothing of what is loaded
later. So, as long as every record can be read, a look-up by key gives out exactly the sessions with
the key that a look-up by id would find, each once and by increasing id.
-/

namespace Sessions

namespace Store

variable {st : Store} {now : Time}

/-- **An id is listed under a key** exactly when the entry that stands there has the key. -/
theorem mem_findByKey {key : IndexKey} {id : Ident} : id ∈ (st.findByKey key now).2 ↔
    ∃ payload keys due, st.find? id = some (.live payload keys due) ∧
      st.standing id now = some (payload, due) ∧ key ∈ keys := by
  have hsettled := settled_tidy now st
  have hkept := hsettled.kept id now (Time.le_refl now)
  have hlisted : id ∈ (st.findByKey key now).2 ↔ ∃ e, (st.tidy now).find? id = some e ∧
      (e.isPresent now && e.keys.contains key) = true := by
    obtain ⟨text⟩ := id
    simp [findByKey, find?, ← Table.mem_entries_iff]
  rw [hlisted]
  constructor
  · rintro ⟨e, hfind, he⟩
    obtain ⟨hpresent, hkey⟩ := Bool.and_eq_true_iff.1 he
    cases e with
    | tombstone since => cases hpresent
    | live payload keys due =>
      have hlive : (Entry.live payload keys due).isExpired now = false := by
        simpa [Entry.isPresent, Entry.isLive] using hpresent
      refine ⟨payload, keys, due, hsettled.live id payload keys due hfind, ?_, by
        simpa [Entry.keys] using hkey⟩
      rw [← hkept, standing, hfind, Option.bind_some, Entry.standing_live, hlive]
      rfl
  · rintro ⟨payload, keys, due, hfind, hstands, hkey⟩
    rw [← hkept] at hstands
    obtain ⟨others, htidy⟩ := find?_of_standing hstands
    obtain ⟨-, rfl, -⟩ := Entry.live.inj
      (Option.some.inj (hfind.symm.trans (hsettled.live id payload others due htidy)))
    have hlive := (Entry.isExpired_live_eq_false payload keys).2 (lt_of_standing hstands)
    exact ⟨_, htidy, by simp [Entry.isPresent, Entry.isLive, hlive, Entry.keys, hkey]⟩

lemma ascending_findByKey (st : Store) (key : IndexKey) (now : Time) :
    (st.findByKey key now).2.Pairwise fun a b => a.text < b.text := by
  rw [findByKey, List.pairwise_map]
  exact (st.tidy now).entries.ascending.filter _

end Store

namespace Repository

variable {r : Repository} {c : Codec} {Q : Session → Prop} {now : Time}

lemma load_snd (r : Repository) (id : Ident) (now : Time) : (r.load id now).2 =
    match r.store.standing id now with
    | some (payload, _) => (r.codec.decode payload).map fun t =>
        if t.isExpired now then none else some (t.withRule r.rule)
    | none => .ok none := by
  have hcases := load_cases r id now
  generalize r.load id now = outcome at hcases ⊢
  cases hcases with
  | absent hnone _ => rw [hnone]
  | unreadable hsome hdec _ => rw [hsome]; simp only [hdec, Except.map]
  | idle hsome hdec hidle _ => rw [hsome]; simp only [hdec, Except.map, hidle, if_true]
  | found hsome hdec hlive _ =>
    rw [hsome]
    simp only [hdec, Except.map, hlive, Bool.false_eq_true, if_false]

lemma load_snd_congr {r' : Repository} {id : Ident} (hsetup : SetUpAs r r')
    (hst : r'.store.standing id now = r.store.standing id now) :
    (r'.load id now).2 = (r.load id now).2 := by
  rw [load_snd, load_snd, hst, hsetup.codec, hsetup.rule]

lemma load_load_snd (r : Repository) (other id : Ident) (now : Time) :
    ((r.load other now).1.load id now).2 = (r.load id now).2 := by
  have hkept : ∀ {st : Store}, Store.Settled now r.store st →
      st.standing id now = r.store.standing id now :=
    fun hsettled => hsettled.kept id now (Time.le_refl now)
  have hsetup := setUpAs_load r other now
  have hcases := load_cases r other now
  generalize r.load other now = outcome at hcases hsetup
  cases hcases with
  | absent _ hsettled => exact load_snd_congr hsetup (hkept hsettled)
  | unreadable _ _ hsettled => exact load_snd_congr hsetup (hkept hsettled)
  | found _ _ _ hsettled => exact load_snd_congr hsetup (hkept hsettled)
  | idle hsome hdec hidle hsettled =>
    by_cases hid : other = id
    · subst hid
      rw [load_snd, load_snd, standing_delete, if_pos rfl, hsome]
      simp only [hdec, Except.map, hidle, if_true]
    · refine load_snd_congr hsetup ?_
      rw [standing_delete, if_neg hid]
      exact hkept hsettled

lemma loadAll_snd {ids : List Ident} {f : Ident → Option Session}
    (h : ∀ id ∈ ids, (r.load id now).2 = .ok (f id)) :
    (r.loadAll now ids).2 = .ok (ids.filterMap f) := by
  induction ids generalizing r with
  | nil => rfl
  | cons id ids ih =>
    have hfirst := h id List.mem_cons_self
    have hrest := ih (r := (r.load id now).1) fun other hother => by
      rw [load_load_snd]
      exact h other (List.mem_cons_of_mem id hother)
    rw [loadAll]
    generalize r.load id now = loaded at hfirst hrest
    obtain ⟨r', outcome⟩ := loaded
    obtain rfl : outcome = .ok (f id) := hfirst
    simp only at hrest ⊢
    rw [hrest, Except.map, List.filterMap_cons]
    cases f id <;> rfl

lemma exists_load (hcodec : r.codec = c) (h : r.store.InPlace c Q) (id : Ident) (now : Time) :
    ∃ found, (r.load id now).2 = .ok found ∧ ∀ t ∈ found, t.id = id := by
  rw [load_snd]
  cases hst : r.store.standing id now with
  | none => exact ⟨none, rfl, fun t ht => by cases ht⟩
  | some x =>
    obtain ⟨t, hback, hid, -⟩ := h.standing hst
    simp only [hcodec, hback.decode, Except.map]
    split
    · exact ⟨none, rfl, fun t ht => by cases ht⟩
    · exact ⟨_, rfl, fun u hu => Option.some.inj hu ▸ hid⟩

lemma exists_of_find {id : Ident} {u : Session} (h : (r.find id now).2 = .ok (some u)) :
    ∃ t, (r.load id now).2 = .ok (some t) ∧ t.touch now = u ∧
      (r.store.standing id now).isSome = true := by
  rw [find_snd] at h
  cases hload : (r.load id now).2 with
  | error e => rw [hload] at h; cases h
  | ok found =>
    rw [hload] at h
    obtain ⟨t, rfl, htouch⟩ := Option.map_eq_some_iff.1 (Except.ok.inj h)
    refine ⟨t, rfl, htouch, ?_⟩
    rw [load_snd] at hload
    cases hst : r.store.standing id now with
    | none => rw [hst] at hload; cases hload
    | some x => rfl

/-- **A look-up by key is exact.** Where every record is in its place it succeeds, and gives out
each session that a look-up by id finds and whose entry has the key, once and by increasing id. -/
theorem findByKey_exact (hcodec : r.codec = c) (h : r.store.InPlace c Q) (key : IndexKey)
    (now : Time) : ∃ sessions, (r.findByKey key now).2 = .ok sessions ∧
      sessions.Pairwise (fun t u => t.id.text < u.id.text) ∧
      ∀ id u, (∃ t ∈ sessions, t.id = id ∧ t.touch now = u) ↔
        (r.find id now).2 = .ok (some u) ∧
          ∃ payload keys due, r.store.find? id = some (.live payload keys due) ∧ key ∈ keys := by
  choose f hload hown using fun id => exists_load hcodec h id now
  have htidy : ∀ id, (load { r with store := r.store.tidy now } id now).2 = .ok (f id) := by
    intro id
    have hsettled := Store.settled_tidy now r.store
    rw [load_snd_congr (.settled hsettled) (hsettled.kept id now (Time.le_refl now)), hload]
  refine ⟨(r.store.findByKey key now).2.filterMap f, loadAll_snd fun id _ => htidy id, ?_,
    fun id u => ⟨?_, ?_⟩⟩
  · refine List.pairwise_filterMap.2 ((r.store.ascending_findByKey key now).imp ?_)
    intro a b hlt t ht u hu
    rwa [hown a t ht, hown b u hu]
  · rintro ⟨t, hmem, rfl, rfl⟩
    obtain ⟨id, hlisted, ht⟩ := List.mem_filterMap.1 hmem
    obtain ⟨payload, keys, due, hfind, -, hkey⟩ := Store.mem_findByKey.1 hlisted
    rw [hown id t ht, find_snd, hload, ht]
    exact ⟨rfl, payload, keys, due, hfind, hkey⟩
  · rintro ⟨hfound, payload, keys, due, hfind, hkey⟩
    obtain ⟨t, hloaded, htouch, hstands⟩ := exists_of_find hfound
    have ht : f id = some t := Except.ok.inj ((hload id).symm.trans hloaded)
    obtain ⟨⟨held, deadline⟩, hst⟩ := Option.isSome_iff_exists.1 hstands
    obtain ⟨others, hother⟩ := Store.find?_of_standing hst
    obtain ⟨rfl, rfl, rfl⟩ := Entry.live.inj (Option.some.inj (hfind.symm.trans hother))
    have hlisted := Store.mem_findByKey.2 ⟨payload, keys, due, hfind, hst, hkey⟩
    exact ⟨t, List.mem_filterMap.2 ⟨id, hlisted, ht⟩, hown id t ht, htouch⟩

end Repository

end Sessions
