import Mbb.Time
import Mbb.UMap
import Mbb.NetflowUpdate
import Mbb.Accounting
import Mbb.StatTables
import Mbb.StatReport
import Mbb.GatewayRun
import Mbb.OfficeTime
import Mbb.OfficeMirror
import Mbb.DroppedUsers
import Mbb.ModuleRun
import Mbb.TaskData
import Mbb.MsgQueue
import Mbb.Transaction
import Mbb.Net
import Mbb.XmlJson
import Mbb.XmlRoundTrip
import Mbb.MapGaps
import Mbb.MapNodes
import Mbb.GatewayLinks
import Mbb.InetText
import Mbb.VarConv
import Mbb.SeparatorRun
import Mbb.MapCount
import Mbb.MapSearch
import Mbb.HttpBatch
import Mbb.Http
import Mbb.Blocks
import Mbb.XmlSort
import Mbb.Shell
import Mbb.Links
import Mbb.XmlPath
import Mbb.XmlClientRun
import Mbb.Talk
import Mbb.Restart
import Mbb.Query
import Mbb.LogLine
import Mbb.SessionVarRun
import Mbb.TaskControlEnd
import Mbb.VarWheel
import Mbb.ModuleNames
import Mbb.HttpResponse
