import ServiceBridge.Helper
import ServiceBridge.Library.Command
import ServiceBridge.Queue

/-! `ServiceBridge_Server` of `test/test01_server.cpp`: its constructors, `parse_service_file`,
    `how_many_services`, `get_served_ROS_topic_names` and `init_server`. -/

namespace ServiceBridge

/-- A thread, by what it runs: `init_server` starts all of them on `scheduler.run()`. -/
inductive Thread where
  | schedulerRun
  deriving DecidableEq, Repr

structure Server where
  nThreadsPerTopic : Nat
  mTotalThreads : Nat
  numServices : Nat
  threads : List Thread
  serviceNames : Finset Str
  ip : Str
  port : Nat
  services : List (ServiceQueue XferType)

/-- The object that runs and what has been written to `cout`. -/
structure Process where
  server : Server
  cout : List Str

def print (text : Str) : Command Fault Process PUnit :=
  modify fun p => { p with cout := p.cout ++ [text] }

def modifyServer (f : Server → Server) : Command Fault Process PUnit :=
  modify fun p => { p with server := f p.server }

/-! ### parse_service_file -/

def minLines : Nat := 1
def maxElems : Nat := 32
def minAttrs : Nat := 4

/-- `services.emplace_back( make_shared<ServiceQueue<xfer_type>>( topicName , qLen ) )` -/
def emplaceService (topicName : Str) (qLen : Nat) : Command Fault Process PUnit :=
  modifyServer fun s => { s with services := s.services ++ [ServiceQueue.new topicName qLen] }

def insertName (topicName : Str) : Command Fault Process PUnit :=
  modifyServer fun s => { s with serviceNames := insert topicName s.serviceNames }

def minAttrsText (servSpec : List Str) (topicName : Str) : Str :=
  "ServiceBridge_Server::parse_service_file: Min number of attributes per topic is ".toList ++
    Str.toString minAttrs ++ ", got: ".toList ++ showVector servSpec ++ " elements for ".toList ++ topicName ++
    "\n".toList

def maxElemsText (maxLen : Nat) (topicName : Str) : Str :=
  "ServiceBridge_Server::parse_service_file: Max number of elements is ".toList ++ Str.toString maxElems ++
    ", got: ".toList ++ Str.toString maxLen ++ " elements for ".toList ++ topicName ++ "\n".toList

def existsText (topicName : Str) : Str :=
  "ServiceBridge_Server::parse_service_file: A service with name ".toList ++ topicName ++
    " already exists!".toList

def minLinesText (fullPath : Str) : Str :=
  "ServiceBridge_Server::parse_service_file: File ".toList ++ fullPath ++ " must have ".toList ++
    Str.toString minLines ++ " or more lines!\n".toList

def convertSpec (spec1 spec2 spec3 : Str) : Except Fault (Nat × Nat × Nat) := do
  let qLen ← Str.stoull spec1
  let reqLen ← Str.stoull spec2
  let rspLen ← Str.stoull spec3
  return (qLen, reqLen, rspLen)

def addService (topicName : Str) (qLen maxLen : Nat) : Command Fault Process PUnit := do
  let p ← get
  if !containerHas p.server.serviceNames topicName then
    if maxLen ≤ 32 then
      emplaceService topicName qLen
      insertName topicName
    else
      print (maxElemsText maxLen topicName)
  else
    print (existsText topicName)

/-- One pass of the loop over the lines. The local `topicName` keeps its value from pass to pass: a line
    with too few attributes is reported under the name that the line before it left there. -/
def parseLine (topicName line : Str) : Command Fault Process Str := do
  let servSpec ← liftM (splitCSVLine line ",".toList true)
  match servSpec with
  | topicName :: spec1 :: spec2 :: spec3 :: _ =>
    let (qLen, reqLen, rspLen) ← liftM (convertSpec spec1 spec2 spec3)
    addService topicName qLen (max reqLen rspLen)
    return topicName
  | _ =>
    -- `servSpec.size() < minAttrs`
    print (minAttrsText servSpec topicName)
    return topicName

def parseServiceFile (files : Str → File) (fullPath : Str) : Command Fault Process Bool := do
  let (lines, printed) ← liftM (readlines files fullPath)
  printed.forM print
  if minLines ≤ lines.length then
    let _ ← lines.foldlM parseLine []
    return true
  else
    print (minLinesText fullPath)
    return false

namespace Server

def howManyServices (s : Server) : Nat := s.services.length

def getServedROSTopicNames (s : Server) : List Str := convertSetToVector s.serviceNames

/-! ### Constructors -/

def dfltThreadsPerTopic : Nat := 2
def dfltPort : Nat := 8000

/-- A server before its constructor's body runs. Nothing sets `MtotalThreads` and `numServices`: they are
    whatever was in their place. -/
def fresh (mTotalThreads numServices nThreadP port : Nat) : Server where
  nThreadsPerTopic := nThreadP
  mTotalThreads := mTotalThreads
  numServices := numServices
  threads := []
  serviceNames := ∅
  ip := []
  port := port
  services := []

end Server

def constructDefault : Command Fault Process PUnit :=
  print ("NOTE: Default number of threads per topic: ".toList ++ Str.toString Server.dfltThreadsPerTopic ++
    "\nNOTE: Default port to serve on: __________ ".toList ++ Str.toString Server.dfltPort ++ "\n".toList)

/-- The body of `ServiceBridge_Server( fullPath , nThreadP , port_ )`, which ignores the result of the parse. -/
def constructFrom (files : Str → File) (fullPath : Str) : Command Fault Process PUnit := do
  let _ ← parseServiceFile files fullPath

/-- Which constructor makes a server, and from what. -/
inductive Construction where
  | dflt
  | file (files : Str → File) (fullPath : Str) (nThreadP port : Nat)

namespace Construction

def start (mTotalThreads numServices : Nat) : Construction → Process
  | dflt => ⟨Server.fresh mTotalThreads numServices Server.dfltThreadsPerTopic Server.dfltPort, []⟩
  | file _ _ nThreadP port => ⟨Server.fresh mTotalThreads numServices nThreadP port, []⟩

def body : Construction → Command Fault Process PUnit
  | dflt => constructDefault
  | file files fullPath _ _ => constructFrom files fullPath

end Construction

/-! ### init_server -/

/-- The machine: `boost::thread::hardware_concurrency()`, an `unsigned`, and the address of the host. -/
structure Host where
  hardwareConcurrency : Nat
  unsigned : hardwareConcurrency < 2 ^ 32
  address : Str

def divide (a b : Nat) : Except Fault Nat := if b = 0 then .error .divisionByZero else .ok (a / b)

def modulo (a b : Nat) : Except Fault Nat := if b = 0 then .error .divisionByZero else .ok (a % b)

structure Creating where
  i : Nat
  threads : List Thread

/-- One test of `i < MtotalThreads` and the pass after it. -/
def createPass (mTotalThreads : Nat) (c : Creating) : Except Fault (Option Creating) :=
  if c.i < mTotalThreads then .ok (some ⟨(c.i + 1) % 2 ^ 32, c.threads ++ [.schedulerRun]⟩) else .ok none

/-- `CPU_lim`. The product is one of `unsigned`s. -/
def cpuLim (host : Host) : Nat := host.hardwareConcurrency * 2 % 2 ^ 32

def capThreads (host : Host) : Command Fault Process PUnit := do
  modifyServer fun s => { s with ip := host.address }
  modifyServer fun s => { s with numServices := s.serviceNames.card }
  modifyServer fun s => { s with mTotalThreads := s.nThreadsPerTopic * s.numServices % Str.sizeRange }
  if 0 < cpuLim host then
    modifyServer fun s => { s with mTotalThreads := min (cpuLim host) s.mTotalThreads }

def spreadThreads : Command Fault Process PUnit := do
  let p ← get
  let perTopic ← liftM (divide p.server.mTotalThreads p.server.numServices)
  modifyServer fun s => { s with nThreadsPerTopic := perTopic }
  let p ← get
  let rest ← liftM (if 1 < p.server.numServices then modulo p.server.mTotalThreads p.server.numServices else .ok 0)
  modifyServer fun s => { s with nThreadsPerTopic := (s.nThreadsPerTopic + rest) % Str.sizeRange }
  modifyServer fun s => { s with mTotalThreads := s.nThreadsPerTopic * s.numServices % Str.sizeRange }

/-- The loop of `init_server`. Its variable takes `2 ^ 32` values: a loop that has not ended by then never
    does. -/
def createThreads : Command Fault Process PUnit := do
  let p ← get
  let c ← liftM (Loop.run .diverges (createPass p.server.mTotalThreads) (2 ^ 32) ⟨0, p.server.threads⟩)
  modifyServer fun s => { s with threads := c.threads }

def initServer (host : Host) : Command Fault Process Nat := do
  capThreads host
  spreadThreads
  createThreads
  return 0

end ServiceBridge
