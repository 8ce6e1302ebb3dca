import Ewokos.Evim.Motion

/-!
# evim: the colon commands

`bin/evim/vim_cmd.c` from `get_one_address` to `colon`.  A C string being parsed is the list of
the bytes left, so `*p` of the empty list is the terminator.

* `colon` is a chain of tests on the command word, in the order of the source; each command has
  its own definition.
* `goto ret` runs `bound_dot`, `goto colon_s_fail` does not.
-/

set_option autoImplicit false

namespace Evim.Ed

open Cells Word
open CString hiding strchr

/-! ## Addresses -/

/-- The byte at the head of a string, 0 at its end. -/
abbrev head (p : List UInt8) : UInt8 := p.headD 0

/-- The digits at the head of a string, and what is left. -/
def number : List UInt8 → Int → Int × List UInt8
  | [], num => (num, [])
  | c :: p, num => if isdigit c.toNat then number p (i32 (num * 10 + c.toNat - 48)) else (num, c :: p)

/-- The locals of `get_one_address`. -/
structure Addr where
  addr : Int
  sign : Int
  gotAddr : Bool

/-- A mark address, behind the quote.  `none` is the error return. -/
def markAddress (s : Ed) (p : List UInt8) : Option (Int × List UInt8) :=
  let c := tolower (head p)
  let q := if 97 ≤ c ∧ c ≤ 122 then s.mark (c - 97).toNat else none
  q.map fun q => (s.countLines s.text q, p.drop 1)

/-- A pattern address from its delimiter on.  `none` is the error return. -/
def patternAddress (s : Ed) (p : List UInt8) : Option (Int × List UInt8) × Ed :=
  let c := head p
  let pat := (p.drop 1).takeWhile (· != c)
  let rest := (p.drop 1).drop pat.length
  let s := if pat ≠ [] then { s with lastSearchPattern := c :: pat } else s
  let rest := if head rest = c then rest.drop 1 else rest
  let forward := c = chr '/'
  let q := if forward then s.nextLine s.dot else s.beginLine s.dot
  let pat := s.lastSearchPattern.drop 1
  let q := match s.charSearch q pat forward true with
    | some q => some q
    | none => s.charSearch (if forward then s.text else s.end_ - 1) pat forward true
  match q with
  | none => (none, s.statusLineBold (str "Pattern not found"))
  | some q => (some (s.countLines s.text q, rest), s)

/-- The loop of `get_one_address`.  Every round consumes a byte, or is the last one. -/
def addressLoop : Nat → Addr → List UInt8 → Ed → Option (Addr × List UInt8) × Ed
  | 0, a, p, s => (some (a, p), s)
  | fuel + 1, a, p, s =>
    if isblank (head p) then
      let a := if a.gotAddr then { a with addr := i32 (a.addr + a.sign), sign := 0 } else a
      addressLoop fuel a (p.drop 1) s
    else if !a.gotAddr ∧ head p = chr '.' then
      addressLoop fuel { a with gotAddr := true } (p.drop 1) s
    else if !a.gotAddr ∧ head p = chr '$' then
      addressLoop fuel { a with addr := s.countLines s.text (s.end_ - 1), gotAddr := true }
        (p.drop 1) s
    else if !a.gotAddr ∧ head p = chr '\'' then
      match s.markAddress (p.drop 1) with
      | none => (none, s.statusLineBold (str "Mark not set"))
      | some (addr, p) => addressLoop fuel { a with addr := addr, gotAddr := true } p s
    else if !a.gotAddr ∧ (head p = chr '/' ∨ head p = chr '?') then
      match s.patternAddress p with
      | (none, s) => (none, s)
      | (some (addr, p), s) => addressLoop fuel { a with addr := addr, gotAddr := true } p s
    else if isdigit (head p).toNat then
      let (num, p) := number p 0
      let a := if !a.gotAddr then { a with addr := num, gotAddr := true }
        else { a with addr := i32 (a.addr + if a.sign ≥ 0 then num else -num) }
      addressLoop fuel { a with sign := 0 } p s
    else if head p = chr '-' ∨ head p = chr '+' then
      let a := if !a.gotAddr then { a with gotAddr := true }
        else { a with addr := i32 (a.addr + a.sign) }
      addressLoop fuel { a with sign := if head p = chr '-' then -1 else 1 } (p.drop 1) s
    else (some ({ a with addr := i32 (a.addr + a.sign) }, p), s)

/-- `get_one_address`: `result`, `valid` and what is left. -/
def getOneAddress (s : Ed) (p : List UInt8) : Option (Int × Bool × List UInt8) × Ed :=
  let a : Addr := ⟨s.countLines s.text s.dot, 0, false⟩
  let (r, s) := addressLoop (p.length + 1) a p s
  (r.map fun (a, p) => (a.addr, a.gotAddr, p), s)

/-- The addresses of a colon command; `got` counts them in its low bits. -/
structure Range where
  b : Int
  e : Int
  got : Nat

/-- The loop of `get_address`, `sep` being the state `GET_SEPARATOR`. -/
def rangeLoop : Nat → Bool → Range → List UInt8 → Ed → Option (Range × List UInt8) × Ed
  | 0, _, g, p, s => (some (g, p), s)
  | fuel + 1, sep, g, p, s =>
    if isblank (head p) then rangeLoop fuel sep g (p.drop 1) s
    else if !sep ∧ head p = chr '%' then
      rangeLoop fuel true ⟨1, s.countLines s.text (s.end_ - 1), 3⟩ (p.drop 1) s
    else if !sep then
      match s.getOneAddress p with
      | (none, s) => (none, s)
      | (some (addr, valid, p), s) =>
        -- quit if the address is invalid and isn't of the form ',$' or '1,'
        if !(valid || head p == chr ',' || head p == chr ';' || g.got % 2 == 1) then
          (some (g, p), s)
        else rangeLoop fuel true ⟨g.e, addr, g.got * 2 + 1⟩ p s
    else if head p = chr ',' ∨ head p = chr ';' then
      let s := if head p = chr ';' then { s with dot := s.findLine g.e } else s
      rangeLoop fuel false g (p.drop 1) s
    else (some (g, p), s)

/-- `get_address`. -/
def getAddress (s : Ed) (p : List UInt8) : Option (Range × List UInt8) × Ed :=
  let saveDot := s.dot
  let (r, s) := rangeLoop (2 * p.length + 2) false ⟨-1, -1, 0⟩ p s
  (r, { s with dot := saveDot })

/-! ## `:set` -/

/-- The options, a short and a long name for each. -/
inductive Opt where
  | autoindent
  | expandtab
  | flash
  | ignorecase
  | showmatch
  | tabstop
  deriving DecidableEq, Repr

/-- `index_in_strings(OPTS_STR, key) >> 1`. -/
def optIndex (name : List UInt8) : Option Opt :=
  if name = str "ai" ∨ name = str "autoindent" then some .autoindent
  else if name = str "et" ∨ name = str "expandtab" then some .expandtab
  else if name = str "fl" ∨ name = str "flash" then some .flash
  else if name = str "ic" ∨ name = str "ignorecase" then some .ignorecase
  else if name = str "sm" ∨ name = str "showmatch" then some .showmatch
  else if name = str "ts" ∨ name = str "tabstop" then some .tabstop
  else none

/-- `strtoul` of a tab stop, as an `int`; -1 when it is out of the range of `unsigned long`. -/
def tabValue (l : List UInt8) : Int :=
  let l := l.dropWhile isspace
  let digits := if head l = chr '-' ∨ head l = chr '+' then l.drop 1 else l
  let n := (digits.takeWhile fun c => isdigit c.toNat).foldl
    (fun (n : Nat) c => n * 10 + (c.toNat - 48)) 0
  if n ≥ 18446744073709551616 then -1
  -- strtoul negates in unsigned arithmetic
  else if head l = chr '-' then i32 (-n)
  else i32 n

/-- The boolean options. -/
def setFlag (s : Ed) (o : Opt) (v : Bool) : Ed :=
  match o with
  | .autoindent => { s with autoindent := v }
  | .expandtab => { s with expandtab := v }
  | .flash => { s with errMethod := v }
  | .ignorecase => { s with ignorecase := v }
  | .showmatch => { s with showmatch := v }
  | .tabstop => s

/-- `setops`: one argument of `:set`, `flgNo` being the length of its `no`. -/
def setops (s : Ed) (args : List UInt8) (flgNo : Nat) : Ed :=
  let name := args.takeWhile (· != chr '=')
  let eq := name.length < args.length
  let bad := s.statusLineBold (str "bad option: " ++ args)
  match optIndex (name.drop flgNo) with
  | none => bad
  | some .tabstop =>
    if !eq ∨ flgNo ≠ 0 then bad
    else
      let t := tabValue (args.drop (name.length + 1))
      if t ≤ 0 ∨ t > MAX_TABSTOP then bad else { s with tabstop := t }
  | some o => if eq then bad else s.setFlag o (flgNo = 0)

/-- A byte `skip_whitespace` skips. -/
def isWhite (c : UInt8) : Bool := c == 32 || (9 ≤ c && c ≤ 13)

/-- The argument loop of `:set`. -/
def setLoop : Nat → List UInt8 → Ed → Ed
  | 0, _, s => s
  | fuel + 1, argp, s =>
    if argp = [] then s
    else
      let i := if argp.take 2 = str "no" then 2 else 0
      let word := argp.takeWhile fun c => !isWhite c
      let s := s.setops word i
      setLoop fuel ((argp.drop word.length).dropWhile isWhite) s

/-- `:set`. -/
def colonSet (s : Ed) (args : List UInt8) : Ed :=
  if args = [] ∨ args = str "all" then
    let no (b : Bool) := if b then [] else str "no"
    s.statusLineBold (no s.autoindent ++ str "autoindent " ++ no s.expandtab ++ str "expandtab " ++
      no s.errMethod ++ str "flash " ++ no s.ignorecase ++ str "ignorecase " ++
      no s.showmatch ++ str "showmatch tabstop=" ++ dec s.tabstop)
  else setLoop (args.length + 1) args s

/-! ## `:s` -/

/-- The locals of the substitution loops. -/
structure Subs where
  subs : Int
  lastLine : Int
  lines : Int
  /-- original line start -/
  ls : Int

/-- Substitutions on line `i` from `q` on.  Every round starts behind the last match. -/
def substLoop (pat rep : List UInt8) (global : Bool) (i : Int) :
    Nat → Int → Subs → Ed → Subs × Ed
  | 0, _, l, s => (l, s)
  | fuel + 1, q, l, s =>
    match s.charSearch q pat true false with
    | none => (l, s)
    | some found =>
      -- for undo support, the first item should not be chained
      let undo := if l.subs = 0 then Undo.allow else Undo.chain
      let (_, s) := s.textHoleDelete found (found + pat.length - 1) undo
      let (bias, s) := if rep = [] then (0, s) else s.stringInsert found rep .chain
      let found := found + bias
      let ls := l.ls + bias
      let s := { s with dot := ls }
      let l : Subs :=
        { subs := l.subs + 1
          lastLine := i
          lines := if l.lastLine ≠ i then l.lines + 1 else l.lines
          ls := ls }
      if global ∧ found + rep.length < s.endLine ls then
        substLoop pat rep global i fuel (found + rep.length) l s
      else (l, s)

/-- The line loop of `:s`. -/
def substLines (pat rep : List UInt8) (global : Bool) : Nat → Int → Int → Subs → Ed → Subs × Ed
  | 0, _, _, l, s => (l, s)
  | n + 1, i, q, l, s =>
    let (l, s) := substLoop pat rep global i ((s.end_ - q).toNat + 1) q { l with ls := q } s
    substLines pat rep global n (i + 1) (s.nextLine l.ls) l s

/-- The fields of `s/find/replace/flags`, as the source cuts them out of the line. -/
def substFields (buf : List UInt8) : Option (List UInt8 × List UInt8 × Bool) :=
  let c := (buf.drop 1).headD 0
  let rest := buf.drop 2
  let pat := rest.takeWhile (· != c)
  if pat.length = rest.length then none
  else
    let rest := rest.drop (pat.length + 1)
    let rep := rest.takeWhile (· != c)
    some (pat, rep, (rest.drop (rep.length + 1)).headD 0 = chr 'g')

/-- The target of a colon command: the addresses, and the positions they stand for. -/
structure Target where
  range : Range
  q : Int
  r : Int

/-- `GOT_ADDRESS`. -/
def Target.gotAddress (t : Target) : Bool := t.range.got % 2 == 1

/-- `GOT_RANGE`. -/
def Target.gotRange (t : Target) : Bool := t.range.got % 4 == 3

/-- `:s`.  The `Bool` is `false` for `goto colon_s_fail`. -/
def colonSubst (s : Ed) (buf : List UInt8) (t : Target) : Bool × Ed :=
  match substFields buf with
  | none => (false, s.statusLine (str ":s expression missing delimiters"))
  | some (pat, rep, global) =>
    if pat = [] ∧ s.lastSearchPattern.drop 1 = [] then
      (true, s.statusLineBold (str "No previous search"))
    else
      let s := if pat ≠ [] then { s with lastSearchPattern := chr '/' :: pat } else s
      let pat := s.lastSearchPattern.drop 1
      let (q, b, e) :=
        if !t.gotAddress then
          let q := s.beginLine s.dot
          (q, s.countLines s.text q, s.countLines s.text q)
        else if !t.gotRange then (t.q, t.range.e, t.range.e)
        else (t.q, t.range.b, t.range.e)
      let (l, s) := substLines pat rep global (e - b + 1).toNat b q ⟨0, 0, 0, q⟩ s
      if l.subs = 0 then (true, s.statusLineBold (str "No match"))
      else
        let s := s.dotSkipOverWs
        if l.subs > 1 then
          (true, s.statusLine (dec l.subs ++ str " substitutions on " ++ dec l.lines ++ str " lines"))
        else (true, s)

/-! ## The other commands -/

/-- A default range of the cursor line. -/
def lineRange (s : Ed) (t : Target) : Int × Int :=
  if t.gotAddress then (t.q, t.r) else (s.beginLine s.dot, s.endLine s.dot)

/-- `:delete`. -/
def colonDelete (s : Ed) (t : Target) : Ed :=
  let (q, r) := s.lineRange t
  (s.yankDeleteDot q r .whole true .allow).dotSkipOverWs

/-- The refusal to drop changes. -/
def noWrite (s : Ed) (cmd : List UInt8) : Ed :=
  s.statusLineBold (str "No write since last change (:" ++ cmd ++ str "! overrides)")

/-- `'fn' … liL, charsC`. -/
def fileStatus (s : Ed) (fn : List UInt8) (note : String) (li chars : Int) : Ed :=
  s.statusLine (str "'" ++ fn ++ str "'" ++ str note ++ str " " ++ dec li ++ str "L, " ++
    dec chars ++ str "C")

/-- `:edit`. -/
def colonEdit (s : Ed) (cmd args : List UInt8) (useforce : Bool) : Option Ed :=
  if s.modifiedCount ≠ 0 ∧ !useforce then some (s.noWrite cmd)
  else
    match if args ≠ [] then some args else s.currentFilename with
    | none => some (s.statusLineBold (str "No current filename"))
    | some fn => do
      let (size, s) ← s.initTextBuffer (some fn)
      let s := { s with reg := Function.update (Function.update s.reg Ureg none) s.ydreg none }
      let li := s.countLines s.text (s.end_ - 1)
      some (s.fileStatus fn (if size < 0 then " [New file]" else "") li (s.end_ - s.text))

/-- `:file`. -/
def colonFile (s : Ed) (args : List UInt8) (t : Target) : Ed :=
  if t.range.e ≥ 0 then s.statusLineBold (str "No address allowed on this command")
  else if args ≠ [] then s.updateFilename (some args)
  else s

/-- `:quit`, `:next` and `:prev`, `c` being the first byte of the command. -/
def colonQuit (s : Ed) (cmd : List UInt8) (useforce : Bool) : Ed :=
  let c := head cmd
  let n := s.argc - s.viOptind - 1
  if useforce then { s with editing := 0 }
  else if s.modifiedCount ≠ 0 then s.noWrite cmd
  else if c = chr 'q' ∧ n > 0 then s.statusLineBold (dec n ++ str " more file(s) to edit")
  else if c = chr 'n' ∧ n ≤ 0 then s.statusLineBold (str "No more files to edit")
  else if c = chr 'p' ∧ s.viOptind < 2 then s.statusLineBold (str "No previous files to edit")
  else if c = chr 'p' then { s with viOptind := s.viOptind - 2, editing := 0 }
  else { s with editing := 0 }

/-- `:read`. -/
def colonRead (s : Ed) (args : List UInt8) (t : Target) : Ed :=
  match if args ≠ [] then some args else s.currentFilename with
  | none => s.statusLineBold (str "No current filename")
  | some fn =>
    let s := if args ≠ [] then s.initFilename fn else s
    let e := t.range.e
    let q :=
      if e = 0 then s.text
      else
        let q := s.nextLine (if t.gotAddress then s.findLine e else s.dot)
        if q = s.end_ - 1 then q + 1 else q
    let num := s.countLines s.text q
    let num := if q = s.end_ then num + 1 else num
    let ofs := q - s.text
    let (size, s) := s.fileInsert (some fn) q false
    if size < 0 then s
    else
      let q := s.text + ofs
      let s := s.fileStatus fn "" (s.countLines q (q + size - 1)) size
      { s with dot := s.findLine num }

/-- `:rewind`. -/
def colonRewind (s : Ed) (cmd : List UInt8) (useforce : Bool) : Ed :=
  if s.modifiedCount ≠ 0 ∧ !useforce then s.noWrite cmd
  else { s with viOptind := 0, editing := 0 }

/-- The end of a write command: leave the file, or say that there are more. -/
def leaveWrite (s : Ed) (cmd : List UInt8) (useforce : Bool) : Ed :=
  let c₁ := (cmd.drop 1).headD 0
  if c₁ = chr 'n' then { s with editing := 0 }
  else if head cmd = chr 'x' ∨ c₁ = chr 'q' then
    let n := s.argc - s.viOptind - 1
    if n > 0 then
      if useforce then { s with viOptind := s.argc, editing := 0 }
      else s.statusLineBold (dec n ++ str " more file(s) to edit")
    else { s with editing := 0 }
  else s

/-- The write itself. -/
def writeRange (s : Ed) (cmd : List UInt8) (fn : Option (List UInt8)) (q r : Int)
    (useforce : Bool) : Ed :=
  let write := s.modifiedCount ≠ 0 ∨ head cmd ≠ chr 'x'
  let size := if write then r - q + 1 else 0
  let (l, s) := if write then s.fileWrite fn q r else (0, s)
  let name := fn.getD (str "(null)")
  if l < 0 then if l = -1 then s.statusLineBoldErrno name else s
  else
    let s := s.fileStatus name "" (s.countLines q (q + l - 1)) l
    if l = size then
      let s := if q = s.text ∧ q + l = s.end_ then { s with modifiedCount := 0 } else s
      s.leaveWrite cmd useforce
    else s

/-- `:write`, `:wq`, `:wn` and `:x`. -/
def colonWrite (s : Ed) (cmd args : List UInt8) (t : Target) (useforce : Bool) : Ed :=
  if args ≠ [] then
    -- the file is only looked up under another name
    let (st, s) := if !useforce ∧ s.currentFilename ≠ some args then s.ask (·.stat) else (none, s)
    if st.isSome then s.statusLineBold (str "File exists (:w! overrides)")
    else (s.initFilename args).writeRange cmd (some args) t.q t.r useforce
  else s.writeRange cmd s.currentFilename t.q t.r useforce

/-- `:yank`. -/
def colonYank (s : Ed) (t : Target) : Ed :=
  let (q, r) := s.lineRange t
  let s := s.textYank q r s.ydreg .whole
  let chars := match s.reg s.ydreg with
    | some b => b.body.length
    | none => 0
  s.statusLine (str "Yank " ++ dec (s.countLines q r) ++ str " lines (" ++ dec chars ++
    str " chars) into [" ++ [s.whatReg] ++ str "]")

/-- `:` and an address alone: go there. -/
def colonGoto (s : Ed) (e : Int) : Ed :=
  if e ≥ 0 then { s with dot := s.findLine e }.dotSkipOverWs else s

/-! ## `colon` -/

/-- The command word, its arguments and whether it ended in `!`. -/
def splitCmd (buf : List UInt8) : List UInt8 × List UInt8 × Bool :=
  let cmd := buf.takeWhile fun c => !isspace c
  let rest := buf.drop cmd.length
  let args := if isblank (head rest) then rest.dropWhile isblank else []
  if cmd.getLast? = some (chr '!') then (cmd.dropLast, args, true) else (cmd, args, false)

/-- The positions a range stands for; `none` is an invalid range. -/
def resolve (s : Ed) (g : Range) : Option Target :=
  let li := s.countLines s.text (s.end_ - 1)
  if g.got % 2 ≠ 1 then some ⟨g, s.text, s.end_ - 1⟩
  else if g.e < 0 ∨ g.e > li then none
  else if g.got % 4 ≠ 3 then some ⟨g, s.findLine g.e, s.endLine (s.findLine g.e)⟩
  else if g.b < 0 ∨ g.b > li ∨ g.b > g.e then none
  else some ⟨g, s.findLine g.b, s.endLine (s.findLine g.e)⟩

/-- The command chain of `colon`.  The `Bool` is `false` when the command skips `bound_dot`. -/
def colonCommand (s : Ed) (buf : List UInt8) (t : Target) : Option (Bool × Ed) :=
  let (cmd, args, useforce) := splitCmd buf
  let isWord (w : String) : Bool := cmd.isPrefixOf (str w)
  let ret (s : Ed) : Option (Bool × Ed) := some (true, s)
  if cmd = [] then ret (s.colonGoto t.range.e)
  else if cmd = str "=" then
    ret (s.statusLine (dec (if t.gotAddress then t.range.e else s.countLines s.text s.dot)))
  else if isWord "delete" then ret (s.colonDelete t)
  else if isWord "edit" then (s.colonEdit cmd args useforce).bind ret
  else if isWord "file" then ret (s.colonFile args t)
  else if isWord "list" then s.hitReturn.bind ret
  else if isWord "quit" ∨ isWord "next" ∨ isWord "prev" then ret (s.colonQuit cmd useforce)
  else if isWord "read" then ret (s.colonRead args t)
  else if isWord "rewind" then ret (s.colonRewind cmd useforce)
  else if isWord "set" then ret (s.colonSet args)
  else if head cmd = chr 's' then some (s.colonSubst buf t)
  else if isWord "version" then ret (s.statusLine (str "vi 0.9.1-vim"))
  else if isWord "write" ∨ cmd = str "wq" ∨ cmd = str "wn" ∨ cmd = str "x" then
    ret (s.colonWrite cmd args t useforce)
  else if isWord "yank" then ret (s.colonYank t)
  else ret (s.notImplemented cmd)

/-- `ret:` of `colon`. -/
def boundHere (s : Ed) : Option Ed := do
  let (dot, s) ← s.boundDot s.dot
  some { s with dot := dot }

/-- `colon`: execute a command line. -/
def colon (s : Ed) (buf : List UInt8) : Option Ed :=
  let buf := (buf.dropWhile (· == chr ':')).dropWhile isblank
  if buf = [] ∨ head buf = chr '"' then s.boundHere
  else
    match s.getAddress buf with
    | (none, s) => s.boundHere
    | (some (g, buf), s) =>
      match s.resolve g with
      | none => (s.statusLineBold (str "Invalid range")).boundHere
      | some t => do
        let (ret, s) ← s.colonCommand buf t
        if ret then s.boundHere else some s

end Evim.Ed
