import Pcl.Htable.Table
import Pcl.Lib.OMap
import Pcl.Htable.Capacity
import Pcl.Htable.Linked
import Pcl.Htable.Shape
import Pcl.Htable.Ops
import Pcl.Htable.Refine
import Pcl.Htable.Spec
import Pcl.Htable.Run
import Pcl.Lib.Utf8
import Pcl.Str.Utf8
import Pcl.Buf
import Pcl.Str.Strtol
import Pcl.Json.State
import Pcl.Json.Decode
import Pcl.Json.Grammar
import Pcl.Json.Accept
import Pcl.Json.Document
import Pcl.Json.StringToken
import Pcl.Json.NumberToken
import Pcl.Json.Bounded
import Pcl.Json.Encode
import Pcl.Json.RoundTrip
import Pcl.Json.Path
import Pcl.Json.PathCompile
import Pcl.Json.PathWalk
import Pcl.Json.PathEnds
import Pcl.Json.PathCompose
import Pcl.Buf.Get
import Pcl.Buf.RoundTrip
import Pcl.Buf.Run
import Pcl.Array.Ops
import Pcl.Array.Run
import Pcl.Vector.Ops
import Pcl.Vector.Run
import Pcl.Io.Fmtconv
import Pcl.Io.FmtconvSpec
import Pcl.Getopt.Ops
import Pcl.Getopt.Render
import Pcl.Htable.Ownership
import Pcl.File.Tryio
import Pcl.File.TryioRun
import Pcl.Socket.Transfer
import Pcl.Frozen.Suppress
import Pcl.Json.Object
import Pcl.Error.Transport
import Pcl.Frozen.Thaw
import Pcl.Str.Encode
import Pcl.Str.Split
import Pcl.Process.Parsecmd
import Pcl.Net.Dnstxtrec
import Pcl.Json.StringBody
import Pcl.Json.StringBuffer
import Pcl.Json.Number
import Pcl.Json.NumberAccept
import Pcl.Json.NumberRead
import Pcl.Json.PathSlice
import Pcl.Json.PathDescent
import Pcl.Json.PathQuoted
import Pcl.Error.Report
import Pcl.Vector.Insert
import Pcl.Buf.Overwrite
import Pcl.Json.Strn
import Pcl.Error.Codes
import Pcl.Htable.Geometry
import Pcl.Json.Counted
import Pcl.Json.RefWalk
import Pcl.Json.PathShape
import Pcl.Json.Compact
import Pcl.Buf.Copy
import Pcl.Str.Base64
import Pcl.Str.Bounded
import Pcl.Str.Fbytes
import Pcl.Str.Unsigned
import Pcl.Str.Replace
import Pcl.Str.LoopEnds
import Pcl.Getopt.Progress
import Pcl.Process.Bounds
import Pcl.Socket.Select
import Pcl.Time.Sleep
import Pcl.Io.Tmpfile
import Pcl.Dir.Mkdirs
import Pcl.Json.Store
import Pcl.Json.StoreSpec
import Pcl.Json.StoreRun
import Pcl.Process.Exec
import Pcl.Process.ExecSpec
import Pcl.Process.ExecRun
import Pcl.Dir.RemoveRun
import Pcl.Event.Run
import Pcl.Queue.Run
import Pcl.Process.Popen
import Pcl.Htable.Drain
import Pcl.Process.Quoted
import Pcl.Frozen.Calls
