import TreeQuery.Proofs.Bounds
import TreeQuery.Proofs.Configs
import TreeQuery.Proofs.Lives
import TreeQuery.Proofs.Lookups

/-!
# What `select` prints

Between a command line and its output lie the configuration, the options that are made of it,
and a selection that is paused while each line is printed. What is printed tells nothing of
all this: it is the walk, pulled event by event, with the configuration's options and what the
request asks for in addition. Each match of the walk is one line, in order, and the event that
ends the walk decides the code and the notice, also after lines have been printed.

The selection gives the events of the whole walk (`Records.exists_steps_eventsOf`), and a
whole walk is some matches and then the event that ends it; the rest is what is made of these
events.
-/

namespace TreeQuery

/-! ## What is made of events -/

/-- Matches are a line each, and the event that ends a walk is none. -/
theorem report_eq (json : Bool) (files : List Match) {last : WalkEvent}
    (terminal : last.isTerminal = true) :
    report json (files.map .found ++ [last])
      = String.join (files.map fun m => m.line json ++ "\n") := by
  have hlast : report json [last] = "" := by
    cases last with
    | found m => cases terminal
    | finished | failed => rfl
  unfold report at hlast ⊢
  rw [List.map_append, String.join_append, hlast, String.append_empty, List.map_map]
  rfl

/-- **The configuration that a request starts from**: the one in the file that it names, or
else the one at the usual place. -/
def SelectRequest.base (r : SelectRequest) (d : Disk) (usual : Path) : Except ConfigError Config :=
  match r.config with
  | some p => Config.load d p
  | none => Config.loadOrDefault d usual

/-- **The query of a request**, or else that of the configuration. -/
def SelectRequest.queryOver (r : SelectRequest) (c : Config) : String :=
  r.query.getD c.query

/-- **The options of a request**: those of the configuration, with each switch that is given. -/
def SelectRequest.optionsOver (r : SelectRequest) (c : Config) : WalkOptions where
  mode := if c.loadContent || r.content then .content else .stats
  filesFirst := c.filesFirst || r.filesFirst
  ignore := if c.includeHidden || r.hidden then fun _ => false else isDotfile

namespace SelectRequest

variable {r : SelectRequest} {d : Disk} {usual : Path} {c : Config}

/-- A request is run with its query and its options over the configuration. -/
theorem run_eq (loads : r.base d usual = .ok c) :
    r.run d usual = match Walker.ofQuery (r.queryOver c) (r.optionsOver c) with
      | .error e => ⟨1, "", [.log (.selecting r.root (r.queryOver c)),
          .text (failureText e.message none)]⟩
      | .ok w =>
        let events := Records.eventsOf ⟨d, r.root⟩ w
        ⟨(ending events).1, report r.json events,
          .log (.selecting r.root (r.queryOver c)) :: (ending events).2⟩ := by
  have hconfig : r.configOn d usual = .ok ⟨r.query.getD c.query, c.loadContent || r.content,
      c.filesFirst || r.filesFirst, c.includeHidden || r.hidden⟩ := by
    unfold base at loads
    unfold configOn
    cases hfile : r.config with
    | none =>
      rw [hfile] at loads
      simp only [loads, bind, Except.bind]
    | some p =>
      rw [hfile] at loads
      simp only [loads, bind, Except.bind]
  rw [run, hconfig]
  rfl

end SelectRequest

/-- A configuration that asks for JSON files and for what is in them, in its lines. -/
def Config.written : List Toml.Line :=
  [.comment " what is shown", .setting "load_content" (.flag true),
    .setting "query" (.text "*.json")]

end TreeQuery
