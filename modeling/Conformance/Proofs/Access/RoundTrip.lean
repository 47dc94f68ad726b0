import Conformance.Access.Log.Json
import Conformance.Checker
import Conformance.Proofs.Json.Reading

/-!
# Access logs come back from their JSON

Each part of a log is read from every text of its JSON: kinds, accesses, roots and the log itself,
each from what is known of its parts. Both ways to write a log give such a text, so a log that was
written and read again is the log that it was, and a check cannot tell them apart.
-/

namespace Conformance

open Json Json.Reader

/-- The kind of an access is read from its name. -/
theorem AccessKind.reads_read (k : AccessKind) : Reads read (.text k.name) k := by
  rintro gap _ rest hgap ⟨⟩
  have hname : readName.run ('"' :: (k.name.toList.flatMap escapeChar ++ '"' :: rest))
      = .ok (k, rest) := by
    rw [readName, run_bind_of_ok (run_peekPiece?_next (by decide))]
    simp only [if_true]
    rw [run_bind_of_ok run_drop, run_bind_of_ok (run_stringRest k.name rest), ofName?_name]
    rfl
  rw [List.append_assoc, quote_append, read, run_bind_of_ok (run_peekPiece? hgap (by decide))]
  exact hname

namespace AccessRecord

/-- The fields of an access are taken one after the other, none of them twice. -/
theorem takes_toJson (a : AccessRecord) :
    Takes readField ⟨none, none, none⟩
      [("source", .text a.source), ("dest", .text a.dest), ("kind", .text a.kind.name)]
      ⟨some a.source, some a.dest, some a.kind⟩ := by
  have hsource := (readsField_once "source" (reads_string a.source)).map fun source =>
    Fields.mk (some source) none none
  -- each field is set with those in front of it in place
  have hdest := (readsField_once "dest" (reads_string a.dest)).map fun dest =>
    Fields.mk (some a.source) (some dest) none
  have hkind := (readsField_once "kind" a.kind.reads_read).map fun kind =>
    Fields.mk (some a.source) (some a.dest) (some kind)
  exact .cons rfl hsource (.cons rfl hdest (.cons rfl hkind .nil))

/-- An access is read from every text of its JSON. -/
theorem reads_read (a : AccessRecord) : Reads read a.toJson a :=
  reads_recordOf ((readsFields_fieldsOf a.takes_toJson).bind fun _ => rfl)

end AccessRecord

namespace AccessRoot

theorem takes_toJson (r : AccessRoot) :
    Takes readField ⟨none, none, none⟩
      [("name", .text r.name), ("elements", .texts r.elements),
        ("accesses", .list (r.accesses.map AccessRecord.toJson))]
      ⟨some r.name, some r.elements, some r.accesses⟩ := by
  have hstrings : Reads (listOf string) (.texts r.elements) r.elements :=
    reads_listOf_map fun s _ => reads_string s
  have hrecords : Reads (listOf AccessRecord.read) (.list (r.accesses.map AccessRecord.toJson))
      r.accesses :=
    reads_listOf_map fun a _ => a.reads_read
  have hname := (readsField_once "name" (reads_string r.name)).map fun name =>
    Fields.mk (some name) none none
  have helements := (readsField_once "elements" hstrings).map fun elements =>
    Fields.mk (some r.name) (some elements) none
  have haccesses := (readsField_once "accesses" hrecords).map fun accesses =>
    Fields.mk (some r.name) (some r.elements) (some accesses)
  exact .cons rfl hname (.cons rfl helements (.cons rfl haccesses .nil))

theorem reads_read (r : AccessRoot) : Reads read r.toJson r :=
  reads_recordOf ((readsFields_fieldsOf r.takes_toJson).bind fun _ => rfl)

end AccessRoot

namespace AccessLog

theorem takes_toJson (log : AccessLog) :
    Takes readField none [("roots", .list (log.roots.map AccessRoot.toJson))] (some log.roots) :=
  .cons rfl ((readsField_once "roots" (reads_listOf_map fun r _ => r.reads_read)).map some) .nil

theorem reads_read (log : AccessLog) : Reads read log.toJson log :=
  reads_recordOf ((readsFields_fieldsOf log.takes_toJson).bind fun _ => rfl)

/-- Every text of the JSON of a log is read as this log, whatever blanks stand in it and around it.
-/
theorem ofJsonText_of_hasText (log : AccessLog) {front cs back : List Char}
    (hcs : Value.HasText log.toJson cs) (hfront : IsGap front) (hback : IsGap back) :
    ofJsonText (String.ofList (front ++ cs ++ back)) = .ok log :=
  whole_of_reads log.reads_read hcs hfront hback

/-- A log on one line is a text of its JSON without blanks. -/
theorem ofJsonText_compact (log : AccessLog) : ofJsonText log.toJsonText = .ok log := by
  have h := log.ofJsonText_of_hasText (Value.hasText_compact _) isGap_nil isGap_nil
  rwa [List.nil_append, List.append_nil] at h

/-- A log over several lines is a text of its JSON with blanks. -/
theorem ofJsonText_pretty (log : AccessLog) : ofJsonText log.toJson.toPrettyText = .ok log := by
  have h := log.ofJsonText_of_hasText (Value.hasText_pretty 0 _) isGap_nil isGap_nil
  rwa [List.nil_append, List.append_nil] at h

/-- A log written as JSON, on one line or over several, is read back as itself, and so is its JSON
with any other blanks in it and around it. So the log replays the events that it did, and every check
of it reports what it did. -/
theorem ofJsonText_toJsonText (log : AccessLog) :
    ofJsonText log.toJsonText = .ok log
      ∧ ofJsonText log.toJson.toPrettyText = .ok log
      ∧ (∀ front cs back, IsGap front → Value.HasText log.toJson cs → IsGap back →
        ofJsonText (String.ofList (front ++ cs ++ back)) = .ok log)
      ∧ (ofJsonText log.toJsonText).map events = .ok log.events
      ∧ ∀ c : Checker,
        (ofJsonText log.toJsonText).map (fun l => c.check l.scan) = .ok (c.check log.scan) := by
  refine ⟨log.ofJsonText_compact, log.ofJsonText_pretty,
    fun front cs back hfront hcs hback => log.ofJsonText_of_hasText hcs hfront hback, ?_,
    fun c => ?_⟩
  · rw [log.ofJsonText_compact]
    rfl
  · rw [log.ofJsonText_compact]
    rfl

/-- A root whose name has quotes, a backslash, a line feed, another control character and a letter
beyond ASCII. -/
def escapedSample : AccessLog :=
  ⟨[⟨"\"\\\n\x01ü", ["a"], [⟨"a", "b", .fieldAccess⟩]⟩, .empty ""]⟩

theorem ofJsonText_toJsonText_escapedSample :
    escapedSample.toJsonText
        = "\x7b\"roots\":[\x7b\"name\":\"\\\"\\\\\\n\\u0001ü\",\"elements\":[\"a\"],"
          ++ "\"accesses\":[\x7b\"source\":\"a\",\"dest\":\"b\",\"kind\":\"field_access\"\x7d]\x7d,"
          ++ "\x7b\"name\":\"\",\"elements\":[],\"accesses\":[]\x7d]\x7d"
      ∧ ofJsonText escapedSample.toJsonText = .ok escapedSample :=
  ⟨by decide +kernel, (ofJsonText_toJsonText escapedSample).1⟩

end AccessLog

end Conformance
