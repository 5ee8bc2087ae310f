import Dom0.Theorems.CopyBounds
import Dom0.Theorems.Descriptors
import Dom0.Theorems.SharedBuffer
import Dom0.Theorems.ShortReads
import Dom0.Theorems.ShortWrites
import Dom0.Theorems.ClientBounds
import Dom0.Theorems.Confinement
import Dom0.Theorems.EntryClass
import Dom0.Theorems.DirectoryPosition
import Dom0.Theorems.SessionReferences
import Dom0.Theorems.DataspaceCopy
import Dom0.Theorems.SocketBlocks
import Dom0.Theorems.BinaryPipeline
import Dom0.Theorems.BinaryTransfer
import Dom0.Theorems.RomTransfer
import Dom0.Theorems.NetworkBinary
import Dom0.Theorems.RequestBuffer
import Dom0.Theorems.HandlerDescriptors
import Dom0.Theorems.Listeners
import Dom0.Theorems.LuaCommands
import Dom0.Theorems.LuaSession
import Dom0.Theorems.ConnectResult
import Dom0.Theorems.SocketOwnership
import Dom0.Theorems.TaskReferences
import Dom0.Theorems.TaskWaits
import Dom0.Theorems.InitialCaps
import Dom0.Theorems.ReceivedFiles
import Dom0.Lib.Hub
import Dom0.Net.LuaConnections
import Dom0.Theorems.LuaPipeline
import Dom0.Lib.Links
import Dom0.Ned.ServerObject
import Dom0.Theorems.ObjectLists
import Dom0.Kernel.Startup
import Dom0.Theorems.Startup
import Dom0.Kernel.Pages
import Dom0.Theorems.Pages
import Dom0.Kernel.Regions
import Dom0.Theorems.Regions
import Dom0.Ned.RemoteMem
import Dom0.Theorems.RemoteMem
import Dom0.Lib.Owners
import Dom0.Net.Listeners
import Dom0.Lib.LuaStack
import Dom0.Lib.Chains
import Dom0.Ned.LuaCap
import Dom0.Ned.LuaLibs
import Dom0.Theorems.LuaCaps
import Dom0.Theorems.LuaLibs
import Dom0.Lib.Spans
import Dom0.Lib.LengthPrefixed
import Dom0.Ned.LocalAttach
import Dom0.Ned.ClassNames
import Dom0.Theorems.ClassNames
import Dom0.Theorems.LocalAttach
