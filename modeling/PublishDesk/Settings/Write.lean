import PublishDesk.Settings.Basic
import PublishDesk.Toml.Quoting

/-!
# Writing settings

`Settings.text` is the text of a settings file. All fields are written, each on its own line, but
for the items of a command of several words, which have a line each.
-/

namespace PublishDesk

/-- A line `key = value`. -/
def assignment (key : String) (value : List Char) : List Char :=
  key.toList ++ [' ', '=', ' '] ++ value ++ ['\n']

/-- A list of texts: on one line up to one item, else one item a line. -/
def textList (ts : List String) : List Char :=
  match ts with
  | [] => ['[', ']']
  | [t] => '[' :: Toml.quote t.toList ++ [']']
  | ts =>
    "[\n".toList ++ (ts.flatMap fun t => "    ".toList ++ Toml.quote t.toList ++ ",\n".toList) ++
      [']']

def numeralText (n : Nat) : List Char := (toString n).toList

def ReviewService.name : ReviewService → String
  | .none => "none"
  | .gh => "gh"

/-- The text of a settings file. -/
def Settings.text (s : Settings) : List Char :=
  "[worker]\n".toList ++
  assignment "command" (textList s.worker.command) ++
  assignment "site_config" (Toml.quote s.worker.siteConfig.toList) ++
  assignment "discovery_max_depth" (numeralText s.worker.maxDepth) ++
  "\n[vcs]\n".toList ++
  assignment "target_branch" (Toml.quote s.repository.targetBranch.toList) ++
  assignment "remote" (Toml.quote s.repository.remote.toList) ++
  assignment "review" (Toml.quote s.repository.review.name.toList) ++
  "\n[ui]\n".toList ++
  assignment "poll_interval_ms" (numeralText s.view.pollInterval) ++
  assignment "indicator_clear_ms" (numeralText s.view.indicatorClear) ++
  assignment "min_commit_message_len" (numeralText s.view.minMessageLength) ++
  ['\n']

end PublishDesk
