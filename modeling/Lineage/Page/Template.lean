/-! The page without its data: a template with places to fill in, and how they are filled. -/

namespace Lineage.Page

/-- The page with a place for its title, one for its heading and one for the data of its script. -/
def template : String :=
  "\n".intercalate [
    "<!DOCTYPE html>",
    "<html lang=\"en\">",
    "<head>",
    "<meta charset=\"utf-8\">",
    "<title>$\x7bTITLE\x7d — inheritzoom</title>",
    "<script " ++
      "src=\"https://unpkg.com/vis-network@9.1.9/standalone/umd/vis-network.min.js\"></script>",
    "<style>",
    "  body \x7b margin: 0; font-family: -apple-system, \"Segoe UI\", sans-serif; display: " ++
      "flex; height: 100vh; \x7d",
    "  #graph \x7b flex: 1; border-right: 1px solid #ddd; \x7d",
    "  #sidebar \x7b width: 340px; padding: 12px 16px; overflow-y: auto; background: #fafafa; \x7d",
    "  h1 \x7b font-size: 1.1rem; margin: 0 0 8px; \x7d",
    "  h2 \x7b font-size: 1rem; margin: 16px 0 6px; \x7d",
    "  .legend div \x7b margin: 3px 0; font-size: 0.85rem; \x7d",
    "  .swatch \x7b display: inline-block; width: 26px; height: 0; margin-right: 6px; " ++
      "vertical-align: middle; border-top: 2px solid; \x7d",
    "  .dashed \x7b border-top-style: dashed; \x7d",
    "  .method \x7b margin: 6px 0; font-size: 0.85rem; \x7d",
    "  .method code \x7b font-weight: 600; \x7d",
    "  .doc \x7b white-space: pre-wrap; color: #555; margin: 2px 0 0 10px; font-size: 0.8rem; \x7d",
    "  .empty \x7b color: #888; font-style: italic; \x7d",
    "</style>",
    "</head>",
    "<body>",
    "<div id=\"graph\"></div>",
    "<div id=\"sidebar\">",
    "  <h1>$\x7bTITLE\x7d</h1>",
    "  <div class=\"legend\">",
    "    <div><span class=\"swatch\" style=\"border-color:#1E88E5\"></span>extends (class)</div>",
    "    <div><span class=\"swatch dashed\" style=\"border-color:#43A047\"></span>implements</div>",
    "    <div><span class=\"swatch\" style=\"border-color:#FB8C00\"></span>extends " ++
      "(interface)</div>",
    "  </div>",
    "  <div id=\"details\"><p class=\"empty\">Click a type to see its methods.</p></div>",
    "</div>",
    "<script>",
    "const data = $\x7bDATA_JSON\x7d;",
    "",
    "const groups = \x7b",
    "  \"class\": \x7b color: \x7b background: \"#BBDEFB\", border: \"#1E88E5\" \x7d, shape: " ++
      "\"box\" \x7d,",
    "  \"abstract_class\": \x7b color: \x7b background: \"#E1BEE7\", border: \"#8E24AA\" " ++
      "\x7d, shape: \"box\", font: \x7b face: \"monospace\" \x7d \x7d,",
    "  \"interface\": \x7b color: \x7b background: \"#C8E6C9\", border: \"#43A047\" \x7d, " ++
      "shape: \"ellipse\" \x7d,",
    "  \"external\": \x7b color: \x7b background: \"#EEEEEE\", border: \"#9E9E9E\" \x7d, " ++
      "shape: \"box\", font: \x7b color: \"#757575\" \x7d \x7d",
    "\x7d;",
    "",
    "const nodesById = \x7b\x7d;",
    "data.nodes.forEach(function (n) \x7b nodesById[n.id] = n; \x7d);",
    "",
    "const network = new vis.Network(",
    "  document.getElementById(\"graph\"),",
    "  \x7b nodes: new vis.DataSet(data.nodes), edges: new vis.DataSet(data.edges) \x7d,",
    "  \x7b",
    "    groups: groups,",
    "    edges: \x7b smooth: \x7b type: \"cubicBezier\" \x7d, font: \x7b size: 10, align: " ++
      "\"middle\" \x7d \x7d,",
    "    physics: \x7b solver: \"forceAtlas2Based\", stabilization: \x7b iterations: 200 \x7d " ++
      "\x7d,",
    "    interaction: \x7b hover: true \x7d",
    "  \x7d",
    ");",
    "",
    "function escapeHtml(text) \x7b",
    "  const div = document.createElement(\"div\");",
    "  div.textContent = text == null ? \"\" : String(text);",
    "  return div.innerHTML;",
    "\x7d",
    "",
    "function showDetails(nodeId) \x7b",
    "  const node = nodesById[nodeId];",
    "  const details = document.getElementById(\"details\");",
    "  if (!node) \x7b return; \x7d",
    "  let out = \"<h2>\" + escapeHtml(node.label) + \"</h2>\";",
    "  out += \"<div>\" + escapeHtml(node.group.replace(\"_\", \" \")) + \"</div>\";",
    "  if (node.file) \x7b out += \"<div class=\\\"empty\\\">\" + escapeHtml(node.file) + " ++
      "\"</div>\"; \x7d",
    "  if (node.methods.length === 0) \x7b",
    "    out += \"<p class=\\\"empty\\\">No methods found.</p>\";",
    "  \x7d else \x7b",
    "    node.methods.forEach(function (m) \x7b",
    "      out += \"<div class=\\\"method\\\"><code>\" + escapeHtml(m.name) + \"</code>(\" + " ++
      "escapeHtml(m.params) + \")\";",
    "      if (m.doc) \x7b out += \"<div class=\\\"doc\\\">\" + escapeHtml(m.doc) + " ++
      "\"</div>\"; \x7d",
    "      out += \"</div>\";",
    "    \x7d);",
    "  \x7d",
    "  details.innerHTML = out;",
    "\x7d",
    "",
    "network.on(\"click\", function (params) \x7b",
    "  if (params.nodes.length > 0) \x7b showDetails(params.nodes[0]); \x7d",
    "\x7d);",
    "</script>",
    "</body>",
    "</html>",
    ""]

/-- A character that a name of a place can begin with. -/
def isNameStart (c : Char) : Bool :=
  c == '_' || c.isAlpha

/-- A character that a name of a place can go on with. -/
def isNameChar (c : Char) : Bool :=
  c == '_' || c.isAlphanum

/-- The name at the front of a text, which is empty if none begins there. -/
def frontName : List Char → List Char
  | [] => []
  | c :: rest => if isNameStart c then c :: rest.takeWhile isNameChar else []

/-- What a dollar sign in a template stands for: one more that follows it, a named place, or
itself. -/
inductive Mark where
  | doubled
  | place (name : List Char)
  | plain
  deriving DecidableEq, Repr

/-- A place whose name is in braces, or no place if the name is empty or its brace is not closed. -/
def bracedMark (text : List Char) : Mark × Nat :=
  let name := frontName text
  if name.isEmpty || (text.drop name.length).head? != some '\x7d' then (.plain, 0)
  else (.place name, name.length + 2)

/-- A place whose name stands as it is, or no place if the name is empty. -/
def bareMark (text : List Char) : Mark × Nat :=
  let name := frontName text
  if name.isEmpty then (.plain, 0) else (.place name, name.length)

/-- What the dollar sign before a text stands for, with the number of characters of the text that
belong to it. -/
def markBefore : List Char → Mark × Nat
  | '$' :: _ => (.doubled, 1)
  | '\x7b' :: rest => bracedMark rest
  | text => bareMark text

/-- What is written for a mark. A place that has no value stays as it is. -/
def Mark.filled (values : List (String × List Char)) (written : List Char) : Mark → List Char
  | .doubled => ['$']
  | .place name => (values.lookup (String.ofList name)).getD written
  | .plain => ['$']

/-- A template with its places filled, behind `skip` characters that belong to the place before. The
values are not looked at again. -/
def filledFrom (values : List (String × List Char)) : Nat → List Char → List Char
  | _, [] => []
  | skip + 1, _ :: rest => filledFrom values skip rest
  | 0, c :: rest =>
    if c == '$' then
      let (mark, length) := markBefore rest
      mark.filled values ('$' :: rest.take length) ++ filledFrom values length rest
    else c :: filledFrom values 0 rest

/-- A template with the places filled that have a value. -/
def filled (values : List (String × List Char)) (text : List Char) : List Char :=
  filledFrom values 0 text

end Lineage.Page
