import Sessions.Codec.Portable
import Sessions.Proofs.Json.Records
import Sessions.Proofs.Session
import Sessions.Proofs.Wire

/-!
# Reading back portable payloads

The document of a record is read back field by field. It encloses the attribute values in two more
objects, so they may be nested two levels less than a text.
-/

namespace Sessions

open Json (Reader)
open Json.Reader (Written)

namespace Portable

/-- How deep a value inside a document may be nested. -/
def maxDepth : Nat := Json.maxDepth - 2

end Portable

namespace Document

/-- The document with each attribute value as it is read from its text. -/
def reread (d : Document) : Document :=
  { d with attributes := Json.Reader.rereadTable d.attributes }

/-- The fields of a document as they are written, with what they are read as. -/
def written (d : Document) : List (Written Document) :=
  [.of "id" true Reader.text (fun d x => { d with id := x }) (.str d.id) d.id,
    .of "creationTime" true Reader.integer (fun d x => { d with created := x })
      (.int d.created.toInt) d.created,
    .of "lastAccessedTime" true Reader.integer (fun d x => { d with accessed := x })
      (.int d.accessed.toInt) d.accessed,
    .of "maxInactiveIntervalSeconds" true Reader.integer (fun d x => { d with maxIdleSeconds := x })
      (.int d.maxIdleSeconds.toInt) d.maxIdleSeconds]
    ++ (match d.principal with
      | some name =>
        [.of "principalName" false (Reader.optional Reader.text)
          (fun d x => { d with principal := x }) (.str name) (some name)]
      | none => [])
    ++ [.of "attributes" false Reader.table (fun d x => { d with attributes := x })
      (.obj d.attributes.entries) (Json.Reader.rereadTable d.attributes)]

lemma members_eq (d : Document) : d.members = d.written.map Written.member := by
  unfold members written
  cases d.principal <;> rfl

lemma foldl_written (d : Document) :
    d.written.foldl (fun record w => w.change record) blank = d.reread := by
  obtain ⟨id, created, accessed, seconds, principal, attributes⟩ := d
  cases principal <;> rfl

variable {d : Document}

lemma forall_written {P : Written Document → Prop}
    (htext : P (.of "id" true Reader.text (fun d x => { d with id := x }) (.str d.id) d.id))
    (hcreated : P (.of "creationTime" true Reader.integer (fun d x => { d with created := x })
      (.int d.created.toInt) d.created))
    (haccessed : P (.of "lastAccessedTime" true Reader.integer (fun d x => { d with accessed := x })
      (.int d.accessed.toInt) d.accessed))
    (hseconds : P (.of "maxInactiveIntervalSeconds" true Reader.integer
      (fun d x => { d with maxIdleSeconds := x }) (.int d.maxIdleSeconds.toInt) d.maxIdleSeconds))
    (hprincipal : ∀ name, P (.of "principalName" false (Reader.optional Reader.text)
      (fun d x => { d with principal := x }) (.str name) (some name)))
    (hattributes : P (.of "attributes" false Reader.table (fun d x => { d with attributes := x })
      (.obj d.attributes.entries) (Json.Reader.rereadTable d.attributes))) :
    ∀ w ∈ d.written, P w := by
  intro w hw
  unfold written at hw
  cases hp : d.principal with
  | none =>
    simp only [hp, List.cons_append, List.nil_append, List.mem_cons, List.not_mem_nil,
      or_false] at hw
    rcases hw with rfl | rfl | rfl | rfl | rfl <;> assumption
  | some name =>
    simp only [hp, List.cons_append, List.nil_append, List.mem_cons, List.not_mem_nil,
      or_false] at hw
    rcases hw with rfl | rfl | rfl | rfl | rfl | rfl
    · exact htext
    · exact hcreated
    · exact haccessed
    · exact hseconds
    · exact hprincipal name
    · exact hattributes

lemma find?_written : ∀ w ∈ d.written, fields.find? (·.name = w.field.name) = some w.field :=
  forall_written rfl rfl rfl rfl (fun _ => rfl) rfl

lemma reads_written {limit : Nat} (hread : Json.ValidMembers d.attributes.entries)
    (hdepth : Json.depthMembers d.attributes.entries ≤ limit) :
    ∀ w ∈ d.written, w.Reads (limit + 1) := by
  refine forall_written ?_ ?_ ?_ ?_ (fun name => ?_) ?_
  · exact Json.Reader.reads_of fun _ _ => Json.Reader.text_quoted _ d.id _
  · exact Json.Reader.reads_of fun _ hrest => Json.Reader.integer_chars d.created hrest
  · exact Json.Reader.reads_of fun _ hrest => Json.Reader.integer_chars d.accessed hrest
  · exact Json.Reader.reads_of fun _ hrest => Json.Reader.integer_chars d.maxIdleSeconds hrest
  · exact Json.Reader.reads_of fun _ _ => Json.Reader.optional_text name
  · exact Json.Reader.reads_of fun _ _ => Json.Reader.table_chars hread hdepth

lemma nodup_written : (d.written.map (·.field.name)).Nodup := by
  unfold written
  cases d.principal with
  | none =>
    change ["id", "creationTime", "lastAccessedTime", "maxInactiveIntervalSeconds",
      "attributes"].Nodup
    decide
  | some name =>
    change ["id", "creationTime", "lastAccessedTime", "maxInactiveIntervalSeconds",
      "principalName", "attributes"].Nodup
    decide

lemma required_written :
    ∀ f ∈ fields, f.required = true → f.name ∈ d.written.map (·.field.name) := by
  intro f hf hreq
  unfold fields at hf
  simp only [List.mem_cons, List.not_mem_nil, or_false] at hf
  rcases hf with rfl | rfl | rfl | rfl | rfl | rfl
  · exact List.mem_cons_self
  · exact List.mem_cons_of_mem _ List.mem_cons_self
  · exact List.mem_cons_of_mem _ (List.mem_cons_of_mem _ List.mem_cons_self)
  · exact List.mem_cons_of_mem _ (List.mem_cons_of_mem _ (List.mem_cons_of_mem _
      List.mem_cons_self))
  · cases hreq
  · cases hreq

lemma record_render {limit : Nat} (hread : Json.ValidMembers d.attributes.entries)
    (hdepth : Json.depthMembers d.attributes.entries ≤ limit) :
    Reader.record fields blank (limit + 1 + 1) (Utf8.encode d.render) = .ok (d.reread, []) := by
  have hbytes : Utf8.encode d.render = bytesOf (Json.obj d.members).chars :=
    Utf8.encode_ofList _
  obtain ⟨w, ws, hw⟩ : ∃ w ws, d.written = w :: ws := by
    unfold written
    exact ⟨_, _, rfl⟩
  have hfind : ∀ v ∈ w :: ws, fields.find? (·.name = v.field.name) = some v.field :=
    hw ▸ find?_written
  have hrecord := Json.Reader.record_written hfind (hw ▸ reads_written hread hdepth)
    (hw ▸ nodup_written) (hw ▸ required_written) blank []
  rwa [← hw, ← members_eq, foldl_written, List.append_nil, ← hbytes] at hrecord

/-- **A document is read from its text.** -/
theorem read_render (hread : Json.ValidMembers d.attributes.entries)
    (hdepth : Json.depthMembers d.attributes.entries ≤ Portable.maxDepth) :
    read (Utf8.encode d.render) = .ok d.reread := by
  rw [read, Json.readWith]
  change (Reader.record fields blank (Portable.maxDepth + 1 + 1) (Utf8.encode d.render) >>= _) = _
  rw [record_render hread hdepth, ok_bind]
  rfl

end Document

namespace Portable

variable {s : Session}

/-- The document of a plain record, once it is read, describes that record with its values as they
come back. -/
lemma toSession_ofSession (hform : s.WellFormed) (hvalues : ∀ name value,
      s.attributes.value? name = some value → value.Valid ∧ value.depth ≤ maxDepth)
    (hkind : s.kind = .plain) :
    (Document.ofSession s).reread.toSession = .ok s.echoed.reloaded := by
  have horder : ¬s.accessed < s.created := Int.not_lt.2 hform.order
  have hentries : Json.rereadMembers s.attributes.entries = s.echoed.attributes.entries := by
    rw [Json.rereadMembers_eq_map, Session.echoed, Attributes.entries_echoed]
    refine List.map_congr_left fun e he => ?_
    obtain ⟨hvalid, hdepth⟩ := hvalues e.1 e.2 (Attributes.value?_of_mem_entries he)
    rw [hvalid.echo_eq (Nat.le_trans hdepth (by decide))]
  rw [Document.toSession]
  simp only [Document.ofSession, Document.reread, Json.Reader.rereadTable, Ident.parse, hform.id,
    Bool.false_eq_true, if_false, ok_bind, Document.time, Time.ofMillis?_millis hform.created,
    Time.ofMillis?_millis hform.accessed, Session.restore, horder, Session.checkInterval,
    Session.wholeSeconds_le_longest hform.interval, if_true, hentries]
  rw [Session.reloaded, Session.echoed, hkind]

lemma header_payload (s : Session) : Header.read (payload s) = .ok ⟨tag, .full .plain⟩ :=
  Header.read_write _ _

/-- **A payload gives the record back**, each value as it is read from its text. -/
theorem read_payload (hs : s.Storable maxDepth) (hkind : s.kind = .plain) :
    read (payload s) = .ok (some s.echoed.reloaded) := by
  have hentries : (Document.ofSession s).attributes.entries = s.attributes.entries := rfl
  obtain ⟨hvalid, hdepth⟩ := Json.validMembers_iff.2 fun m hm =>
    hs.values m.1 m.2 (Attributes.value?_of_mem_entries hm)
  have hdocument := Document.read_render (d := Document.ofSession s) (hentries ▸ hvalid)
    (hentries ▸ hdepth)
  have haccepts : accepts ⟨tag, .full .plain⟩ = true := by decide
  have hfull : Header.isDelta ⟨tag, .full .plain⟩ = false := by decide
  have hfound : readDocument (payload s) = .ok (some (Document.ofSession s).reread) := by
    rw [readDocument, header_payload, ok_bind, if_pos haccepts]
    simp only [hfull, Bool.false_eq_true, if_false]
    rw [payload, Header.drop_write, hdocument]
  rw [read, hfound, ok_bind]
  simp only [toSession_ofSession hs.wellFormed hs.values hkind, ok_bind]

end Portable

end Sessions
