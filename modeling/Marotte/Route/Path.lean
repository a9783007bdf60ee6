import Marotte.Route.Percent
import Marotte.Route.Number
import Mathlib.Data.List.DropRight

/-! # Locations and routes

`parseRoute` reads a location as a route and `buildPath` writes one, over texts of Unicode
characters.
-/
namespace Marotte.Route

inductive SettingsTab where
  | general | tools | permissions | instructions
  deriving DecidableEq

inductive GitTab where
  | changes | prs | sources
  deriving DecidableEq

inductive DocsTab where
  | steering | skills | agents | specs | hooks | workflows
  deriving DecidableEq

inductive HistoryTab where
  | chats | runs
  deriving DecidableEq

/-- What a location names. An absent optional field is `none`. -/
inductive Route where
  | chat (id : Text)
  | git (tab : GitTab) (pr : Option Text)
  | files (path : Text)
  | file (path : Text) (line : Option WholeNumber)
  | history (tab : Option HistoryTab)
  | docs (tab : DocsTab)
  | run (id : Text) (node : Option Text)
  | subagent (chat id : Text)
  | spec (dir : Text)
  | settings (tab : SettingsTab)
  | web (path : Text)
  deriving DecidableEq

/-! ## Reading a location -/

/-- A malformed component is kept as it is. -/
def safeDecode (s : Text) : Text :=
  (decodeURIComponent s).getD s

def parseSettingsTab (seg : Option Text) : SettingsTab :=
  if seg = some "tools".toList then .tools
  else if seg = some "permissions".toList then .permissions
  else if seg = some "instructions".toList then .instructions
  else .general

def parseDocsTab (seg : Option Text) : DocsTab :=
  if seg = some "skills".toList then .skills
  else if seg = some "agents".toList then .agents
  else if seg = some "specs".toList then .specs
  else if seg = some "hooks".toList then .hooks
  else if seg = some "workflows".toList then .workflows
  else .steering

def parseGitTab (seg : Option Text) : GitTab :=
  if seg = some "prs".toList then .prs
  else if seg = some "sources".toList then .sources
  else .changes

def parseHistoryTab (seg : Option Text) : HistoryTab :=
  if seg = some "runs".toList then .runs else .chats

/-- What is behind `front`, when the text begins with it. -/
def behind (front s : Text) : Option Text :=
  if front.isPrefixOf s then some (s.drop front.length) else none

/-- `#L` and a run of digits, whatever is behind. -/
def parseHashLine (hash : Text) : Option WholeNumber :=
  match behind "#L".toList hash with
  | none => none
  | some s =>
    match s.takeWhile Char.isDigit with
    | [] => none
    | digits =>
      match parseInt digits with
      | some n => if 0 < n.val then some n else none
      | none => none

def isLineEnd (c : Char) : Bool :=
  c ∈ ['\n', '\r', '\u2028', '\u2029']

/-- The value behind `front` in a fragment of one line. An empty value is none. -/
def parseHashValue (front hash : Text) : Option Text :=
  match behind front hash with
  | none => none
  | some s =>
    if s.any isLineEnd then none
    else if safeDecode s = [] then none
    else some (safeDecode s)

def parseHashNode (hash : Text) : Option Text :=
  parseHashValue "#node=".toList hash

def parseHashPR (hash : Text) : Option Text :=
  parseHashValue "#pr=".toList hash

/-- A path without the slashes it begins and ends with. -/
def trimSlashes (s : Text) : Text :=
  (s.dropWhile (· = '/')).rdropWhile (· = '/')

def segmentsOf (pathname : Text) : List Text :=
  (trimSlashes pathname).splitOn '/'

def joinSlash (segments : List Text) : Text :=
  ['/'].intercalate segments

def dropSlashes (s : Text) : Text :=
  s.dropWhile (· = '/')

/-- The default location: the last active chat. -/
def noChat : Route :=
  .chat []

def parseRoute (pathname hash : Text) : Route :=
  let segments := segmentsOf pathname
  let head := segments.headD []
  if head = "git".toList then
    let tab := parseGitTab segments[1]?
    .git tab (if tab = .prs then parseHashPR hash else none)
  else if head = "history".toList then
    let tab := parseHistoryTab segments[1]?
    .history (if tab = .chats then none else some tab)
  else if head = "docs".toList then
    .docs (parseDocsTab segments[1]?)
  else if head = "run".toList then
    let id := safeDecode (segments.getD 1 [])
    if id ≠ [] then .run id (parseHashNode hash) else noChat
  else if head = "spec".toList then
    if segments.length = 2 then
      let dir := safeDecode (segments.getD 1 [])
      if dir ≠ [] then .spec dir else noChat
    else noChat
  else if head = "settings".toList then
    .settings (parseSettingsTab segments[1]?)
  else if head = "chat".toList then
    let id := safeDecode (segments.getD 1 [])
    if id = [] then noChat
    else if segments[2]? = some "subagent".toList then
      let subtask := safeDecode (joinSlash (segments.drop 3))
      if subtask ≠ [] then .subagent id subtask else .chat id
    else .chat id
  else if head = "files".toList then
    if segments.length ≤ 1 then .files ['/']
    else
      let raw := dropSlashes (safeDecode (joinSlash (segments.drop 1)))
      .files (if raw = [] ∨ raw = ['.'] then ['/'] else '/' :: raw)
  else if head = "web".toList then
    let raw := dropSlashes (safeDecode (joinSlash (segments.drop 1)))
    if raw ≠ [] then .web ('/' :: raw) else noChat
  else if head = "file".toList then
    if segments.length ≤ 1 then noChat
    else
      let path := safeDecode (joinSlash (segments.drop 1))
      if path = [] then noChat else .file path (parseHashLine hash)
  else noChat

/-! ## Writing a route -/

/-- Every segment of a path encoded, the separators kept. -/
def encodePath (path : Text) : Text :=
  joinSlash ((path.splitOn '/').map encodeURIComponent)

def SettingsTab.name : SettingsTab → Text
  | .general => "general".toList
  | .tools => "tools".toList
  | .permissions => "permissions".toList
  | .instructions => "instructions".toList

def GitTab.name : GitTab → Text
  | .changes => "changes".toList
  | .prs => "prs".toList
  | .sources => "sources".toList

def DocsTab.name : DocsTab → Text
  | .steering => "steering".toList
  | .skills => "skills".toList
  | .agents => "agents".toList
  | .specs => "specs".toList
  | .hooks => "hooks".toList
  | .workflows => "workflows".toList

def chatPath (id : Text) : Text :=
  if id = [] then "/".toList else "/chat/".toList ++ encodeURIComponent id

/-- The identity rides as a fragment on the tab that holds pull requests. -/
def gitPath (tab : GitTab) (pr : Option Text) : Text :=
  if tab = .prs ∧ pr.getD [] ≠ [] then "/git/prs#pr=".toList ++ encodeURIComponent (pr.getD [])
  else if tab = .changes then "/git".toList
  else "/git/".toList ++ tab.name

def historyPath (tab : Option HistoryTab) : Text :=
  if tab = some .runs then "/history/runs".toList else "/history".toList

def docsPath (tab : DocsTab) : Text :=
  if tab = .steering then "/docs".toList else "/docs/".toList ++ tab.name

/-- The node rides as a fragment, and only when there is one. -/
def runPath (id : Text) (node : Option Text) : Text :=
  if node.getD [] ≠ [] then
    "/run/".toList ++ encodeURIComponent id ++ "#node=".toList ++ encodeURIComponent (node.getD [])
  else "/run/".toList ++ encodeURIComponent id

def subagentPath (chat id : Text) : Text :=
  "/chat/".toList ++ encodeURIComponent chat ++ "/subagent/".toList ++ encodeURIComponent id

def specPath (dir : Text) : Text :=
  "/spec/".toList ++ encodeURIComponent dir

def filesPath (path : Text) : Text :=
  if path = ['/'] ∨ path = ['.'] ∨ path = [] then "/files".toList
  else "/files/".toList ++ encodePath (dropSlashes path)

def filePath (path : Text) (line : Option WholeNumber) : Text :=
  match line with
  | some n =>
    if 0 < n.val then "/file/".toList ++ encodePath path ++ "#L".toList ++ n.toString
    else "/file/".toList ++ encodePath path
  | none => "/file/".toList ++ encodePath path

def webPath (path : Text) : Text :=
  "/web/".toList ++ encodePath (dropSlashes path)

def settingsPath (tab : SettingsTab) : Text :=
  if tab = .general then "/settings".toList else "/settings/".toList ++ tab.name

def buildPath : Route → Text
  | .chat id => chatPath id
  | .git tab pr => gitPath tab pr
  | .history tab => historyPath tab
  | .docs tab => docsPath tab
  | .run id node => runPath id node
  | .subagent chat id => subagentPath chat id
  | .spec dir => specPath dir
  | .files path => filesPath path
  | .file path line => filePath path line
  | .web path => webPath path
  | .settings tab => settingsPath tab

/-! ## Reloading -/

/-- The path of a URL and its fragment with the sign before it. -/
def pathOf (url : Text) : Text :=
  url.takeWhile (· ≠ '#')

def fragmentOf (url : Text) : Text :=
  url.dropWhile (· ≠ '#')

/-- The route the location of a route is read as. -/
def reload (r : Route) : Route :=
  parseRoute (pathOf (buildPath r)) (fragmentOf (buildPath r))

end Marotte.Route
